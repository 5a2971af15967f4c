import RootedC.Typing.Ty

/-! Procedures that the runtime provides. -/
namespace RootedC

/-- A builtin that takes the caller's frame may start a collection. -/
structure Builtin where
  name : String
  parameters : List Ty
  result : Ty
  takesFrame : Bool

namespace Builtin

def ty (b : Builtin) : Ty := .proc b.parameters b.result

def table : List Builtin :=
  [⟨"print_i32", [.i32], .unit, false⟩,
    ⟨"println_i32", [.i32], .unit, false⟩,
    ⟨"print_bool", [.bool], .unit, false⟩,
    ⟨"println_bool", [.bool], .unit, false⟩,
    ⟨"print_str", [.str], .unit, false⟩,
    ⟨"println_str", [.str], .unit, false⟩,
    ⟨"flush", [], .unit, false⟩,
    ⟨"str_concat", [.str, .str], .str, true⟩,
    ⟨"str_slice", [.str, .i32, .i32], .str, true⟩,
    ⟨"str_eq", [.str, .str], .bool, false⟩,
    ⟨"str_repeat", [.str, .i32], .str, true⟩,
    ⟨"gc", [], .unit, true⟩]

def find? (name : String) : Option Builtin := table.find? (·.name = name)

end Builtin

end RootedC
