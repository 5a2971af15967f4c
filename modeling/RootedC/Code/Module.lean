import RootedC.Code.Instr

/-! A module of generated code: procedures, the string table, constants and the entry. -/
namespace RootedC.Code

structure Parameter where
  scope : Nat
  name : String
  cType : String
  deriving DecidableEq, Repr

def Parameter.target (p : Parameter) : Var := .named p.scope p.name

structure Prototype where
  name : Name
  parameters : List Parameter
  resultType : String
  deriving DecidableEq, Repr

structure Procedure where
  prototype : Prototype
  scope : Nat
  body : List Instr

/-- A string as written, escapes included, and its length once they are decoded. -/
structure Text where
  raw : String
  length : Nat
  deriving DecidableEq, Repr

structure Constant where
  name : String
  cType : String
  value : Operand

structure Entry where
  scope : Nat
  body : List Instr

structure Module where
  prototypes : List Prototype
  procedures : List Procedure
  strings : List Text
  constants : List Constant
  entryPoint? : Option Entry

namespace Module

def empty : Module := ⟨[], [], [], [], none⟩

/-- The place of a string in the table, and the module with the string in it. A string that is there
already keeps its place and length. -/
def intern (m : Module) (raw : String) (length : Nat) : Nat × Module :=
  match m.strings.findIdx? (·.raw = raw) with
  | some index => (index, m)
  | none => (m.strings.length, { m with strings := m.strings ++ [⟨raw, length⟩] })

end Module

end RootedC.Code
