import RootedC.Typing.Operator

/-!
Typed programs. Every expression carries its type and span and, if it is a call or a let whose
value may be on the heap, the root slot that keeps the value alive.
-/
namespace RootedC.Typed

structure Info where
  ty : Ty
  root? : Option Nat
  span : Span

/-- Where a name is bound. -/
inductive Origin where
  | lexical (scope : Nat)
  | global
  | builtin
  deriving DecidableEq, Repr

/-- A procedure with its scope, the types of its parameters and its result, and the size of its root
table; `ε` is the type of expressions. -/
structure Procedure (ε : Type) where
  scope : Nat
  parameters : List (String × Ty)
  result : Ty
  body : ε
  rootCount : Nat
  span : Span

def Procedure.ty {ε : Type} (p : Procedure ε) : Ty :=
  .proc (p.parameters.map (·.2)) p.result

inductive Callee (ε : Type) where
  | builtin (name : String)
  | global (name : String)
  | literal (procedure : Procedure ε)

inductive Expr where
  | integer (info : Info) (value : Int)
  | boolean (info : Info) (value : Bool)
  | text (info : Info) (raw : String) (length : Nat)
  | unit (info : Info)
  | name (info : Info) (name : String) (level : Nat) (origin : Origin)
  | unary (info : Info) (op : UnaryOp) (operand : Expr)
  | binary (info : Info) (op : BinaryOp) (left right : Expr)
  | call (info : Info) (callee : Callee Expr) (arguments : List Expr)
  | branch (info : Info) (condition thenArm elseArm : Expr)
  | letIn (info : Info) (scope : Nat) (declarations : List (String × Expr)) (body : Expr)
  | block (info : Info) (body : List Expr)

namespace Expr

def info : Expr → Info
  | integer i _ => i
  | boolean i _ => i
  | text i _ _ => i
  | unit i => i
  | name i _ _ _ => i
  | unary i _ _ => i
  | binary i _ _ _ => i
  | call i _ _ => i
  | branch i _ _ _ => i
  | letIn i _ _ _ => i
  | block i _ => i

def ty (e : Expr) : Ty := e.info.ty

def span (e : Expr) : Span := e.info.span

def root? (e : Expr) : Option Nat := e.info.root?

end Expr

structure Constant where
  name : String
  ty : Ty
  value : Expr

inductive Item where
  | procedure (name : String) (literal : Procedure Expr)
  | constant (constant : Constant)
  | entry (literal : Procedure Expr)

structure Module where
  procedures : List (String × Procedure Expr)
  constants : List Constant
  entryPoint? : Option (Procedure Expr)

namespace Module

/-- The module of some items; of several entries the last one counts. -/
def ofItems (items : List Item) : Module where
  procedures := items.filterMap fun
    | .procedure name literal => some (name, literal)
    | _ => none
  constants := items.filterMap fun
    | .constant c => some c
    | _ => none
  entryPoint? := (items.filterMap fun
    | .entry literal => some literal
    | _ => none).getLast?

end Module

end RootedC.Typed
