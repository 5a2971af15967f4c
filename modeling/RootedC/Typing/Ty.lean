import RootedC.Diagnostic.Basic
import RootedC.Syntax.TypeExpr

/-! Types of expressions, how they are shown, compared and read from what is written. -/
namespace RootedC

/-- The type `hole` stands for a parameter whose type is not known yet. -/
inductive Ty where
  | i32 | bool | str | unit
  | proc (parameters : List Ty) (result : Ty)
  | hole

namespace Ty

def isHole : Ty → Bool
  | hole => true
  | _ => false

def isProcedure : Ty → Bool
  | proc _ _ => true
  | _ => false

/-- Whether a value of the type can live on the heap: all but plain scalars can. -/
def mayBeHeap : Ty → Bool
  | i32 | bool | unit => false
  | _ => true

/-- The types that have a name, by that name. -/
def ofName? : String → Option Ty
  | "i32" => some i32
  | "bool" => some bool
  | "str" => some str
  | "unit" => some unit
  | _ => none

mutual

/-- Whether two types are the same tree. -/
def same : Ty → Ty → Bool
  | i32, i32 => true
  | bool, bool => true
  | str, str => true
  | unit, unit => true
  | proc ps r, proc qs q => sameAll ps qs && same r q
  | hole, hole => true
  | _, _ => false

def sameAll : List Ty → List Ty → Bool
  | [], [] => true
  | t :: ts, u :: us => same t u && sameAll ts us
  | _, _ => false

end

instance : BEq Ty := ⟨same⟩

mutual

/-- The type as messages show it. -/
def display : Ty → String
  | i32 => "i32"
  | bool => "bool"
  | str => "str"
  | unit => "unit"
  | proc ps r => "proc(" ++ displayAll ps ++ ") -> " ++ display r
  | hole => "_"

def displayAll : List Ty → String
  | [] => ""
  | [t] => display t
  | t :: u :: ts => display t ++ ", " ++ displayAll (u :: ts)

end

/-- A hole agrees with every type, other types only with themselves. -/
def agrees (expected received : Ty) : Bool :=
  expected.isHole || received.isHole || expected == received

/-- What two agreeing types stand for: the first of them that is no hole. -/
def settle (first second : Ty) : Ty := if first.isHole then second else first

/-- The C type of a value. Procedures and holes have none. -/
def cType : Ty → Except Cause String
  | i32 => .ok "int32_t"
  | bool => .ok "bool"
  | str => .ok "AjisaiString *"
  | unit => .ok "AjisaiUnit"
  | proc _ _ => .error .firstClassProcedure
  | hole => .error .unresolvedType

end Ty

namespace TypeExpr

mutual

/-- The type that is written. The first part without a meaning is the one complained about. -/
def toTy : TypeExpr → Except Diagnostic Ty
  | name n p =>
    match Ty.ofName? n with
    | some ty => .ok ty
    | none => .error ⟨.unknownType n, p⟩
  | array _ p => .error ⟨.collectionType, p⟩
  | proc parameters result _ => do
    let ps ← toTys parameters
    let r ← toTy result
    return .proc ps r

def toTys : List TypeExpr → Except Diagnostic (List Ty)
  | [] => .ok []
  | a :: more => do
    let t ← toTy a
    let ts ← toTys more
    return t :: ts

end

end TypeExpr

end RootedC
