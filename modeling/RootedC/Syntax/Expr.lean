import RootedC.Syntax.TypeExpr
import RootedC.Token.Basic

/-! Expressions as they are written. Everything but a top-level item is an expression. -/
namespace RootedC

structure Parameter where
  name : String
  type? : Option TypeExpr
  span : Span

/-- One `name: T = value` of a let; `ε` is the type of expressions. -/
structure Declaration (ε : Type) where
  name : String
  type? : Option TypeExpr
  value : ε
  span : Span

/-- Parameters, result and body of a procedure, whether it has a name or not. -/
structure Procedure (ε : Type) where
  parameters : List Parameter
  result? : Option TypeExpr
  body : ε
  span : Span

/-- The raw text of a string has its escapes as written. Operators are kept as tokens. -/
inductive Expr where
  | number (value : Int) (span : Span)
  | text (raw : String) (span : Span)
  | boolean (value : Bool) (span : Span)
  | unit (span : Span)
  | name (name : String) (span : Span)
  | unary (operator : Token) (operand : Expr) (span : Span)
  | binary (left : Expr) (operator : Token) (right : Expr) (span : Span)
  | call (callee : Expr) (arguments : List Expr) (span : Span)
  | branch (condition thenArm : Expr) (elseArm? : Option Expr) (span : Span)
  | letIn (declarations : List (Declaration Expr)) (body : Expr) (span : Span)
  | procedure (literal : Procedure Expr)
  | block (body : List Expr) (span : Span)

namespace Expr

def span : Expr → Span
  | number _ s => s
  | text _ s => s
  | boolean _ s => s
  | unit s => s
  | name _ s => s
  | unary _ _ s => s
  | binary _ _ _ s => s
  | call _ _ s => s
  | branch _ _ _ s => s
  | letIn _ _ s => s
  | procedure literal => literal.span
  | block _ s => s

end Expr

end RootedC
