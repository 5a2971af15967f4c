import RootedC.Token.Kind
import RootedC.Typing.Ty

/-! Unary and binary operators and the types they work on. -/
namespace RootedC

inductive UnaryOp where
  | negate | not
  deriving DecidableEq, Repr

namespace UnaryOp

def ofKind? : Kind → Option UnaryOp
  | .dash => some negate
  | .bang => some not
  | _ => none

def symbol : UnaryOp → String
  | negate => "-"
  | not => "!"

/-- The type of the operand, which is that of the result too. -/
def ty : UnaryOp → Ty
  | negate => .i32
  | not => .bool

end UnaryOp

inductive BinaryOp where
  | add | sub | mul | div | mod | eq | ne | lt | le | gt | ge | and | or
  deriving DecidableEq, Repr

namespace BinaryOp

def all : List BinaryOp := [add, sub, mul, div, mod, eq, ne, lt, le, gt, ge, and, or]

def ofKind? : Kind → Option BinaryOp
  | .plus => some add
  | .dash => some sub
  | .star => some mul
  | .slash => some div
  | .percent => some mod
  | .equals => some eq
  | .notEquals => some ne
  | .less => some lt
  | .lessEquals => some le
  | .greater => some gt
  | .greaterEquals => some ge
  | .and => some and
  | .or => some or
  | _ => none

def symbol : BinaryOp → String
  | add => "+"
  | sub => "-"
  | mul => "*"
  | div => "/"
  | mod => "%"
  | eq => "=="
  | ne => "!="
  | lt => "<"
  | le => "<="
  | gt => ">"
  | ge => ">="
  | and => "&&"
  | or => "||"

def ofSymbol? (text : String) : Option BinaryOp := all.find? (·.symbol = text)

/-- Comparisons and connectives give a truth value, arithmetic the type of its operands. -/
def yieldsBool : BinaryOp → Bool
  | add | sub | mul | div | mod => false
  | _ => true

/-- Whether the right operand is evaluated only if the left one does not decide. -/
def isConnective : BinaryOp → Bool
  | and | or => true
  | _ => false

/-- Whether the operator works on operands of a type. -/
def worksOn (op : BinaryOp) (ty : Ty) : Bool :=
  match op with
  | and | or => ty == .bool
  | eq | ne => ty == .i32 || ty == .bool
  | _ => ty == .i32

/-- The type of the result on operands of a type. -/
def resultTy (op : BinaryOp) (operands : Ty) : Ty := if op.yieldsBool then .bool else operands

end BinaryOp

end RootedC
