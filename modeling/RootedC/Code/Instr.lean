import RootedC.Typing.Operator

/-!
Instructions of a procedure body. Operands are values that are composed of other values and can be
written as one C expression; instructions are the statements around them.
-/
namespace RootedC.Code

/-- A generated procedure: one with a name, or a literal known by its scope. -/
inductive Name where
  | user (name : String)
  | literal (scope : Nat)
  deriving DecidableEq, Repr

/-- A local of a generated procedure: a named one of a scope, or a temporary. -/
inductive Var where
  | named (scope : Nat) (name : String)
  | temporary (scope index : Nat)
  deriving DecidableEq, Repr

inductive Operand where
  | builtin (name : String)
  | global (name : String)
  | load (source : Var)
  | callBuiltin (name : String) (arguments : List Operand)
  /-- A call that hands the caller's frame over. -/
  | callBuiltinWithFrame (name : String) (arguments : List Operand)
  | callProcedure (name : Name) (arguments : List Operand)
  | integer (value : Int)
  | boolean (value : Bool)
  /-- A string literal by its place in the string table. -/
  | text (index : Nat)
  | negate (operand : Operand)
  | not (operand : Operand)
  | binary (op : BinaryOp) (left right : Operand)

/-- The unit value. -/
def Operand.unit : Operand := .builtin "unit"

inductive Instr where
  /-- The root table of the activation, all slots empty. -/
  | rootTable (size : Nat)
  | setRoot (slot : Nat) (value : Operand)
  | clearRoot (slot : Nat)
  /-- The frame of the activation, linked to the caller's. -/
  | frame (size : Nat)
  | define (cType : String) (target : Var) (value? : Option Operand)
  | store (target : Var) (value : Operand)
  | ret (value : Operand)
  | branch (condition : Operand) (thenBody elseBody : List Instr)
  | eval (value : Operand)

end RootedC.Code
