import RootedC.Reading.Power
import RootedC.Token.Kind

/-!
A grammar as tables: which form of expression, type or item a token kind begins, and which form it
continues, with what power.
-/
namespace RootedC

/-- Forms of an expression, by the token that begins them. -/
inductive StartForm where
  | primary | unary | grouping | block | branch | letIn | procedure
  deriving DecidableEq, Repr

/-- Forms of an expression that continue one already read. -/
inductive FollowForm where
  | binary | call
  deriving DecidableEq, Repr

inductive TypeForm where
  | name | proc
  deriving DecidableEq, Repr

inductive ItemForm where
  | procedure | constant | mutable | entry
  deriving DecidableEq, Repr

structure Grammar where
  start? : Kind → Option StartForm
  follow? : Kind → Option (Power × FollowForm)
  typeStart? : Kind → Option TypeForm
  /-- The power with which a kind continues a type, as an array type of it. -/
  typeFollow? : Kind → Option Power
  item? : Kind → Option ItemForm

namespace Grammar

def standard : Grammar where
  start?
    | .number | .identifier | .string | .wordTrue | .wordFalse => some .primary
    | .dash | .bang => some .unary
    | .openParen => some .grouping
    | .openCurly => some .block
    | .wordIf => some .branch
    | .wordLet => some .letIn
    | .wordProc => some .procedure
    | _ => none
  follow?
    | .or => some (.disjunction, .binary)
    | .and => some (.conjunction, .binary)
    | .less | .lessEquals | .greater | .greaterEquals | .equals | .notEquals =>
      some (.relation, .binary)
    | .plus | .dash => some (.sum, .binary)
    | .star | .slash | .percent => some (.product, .binary)
    | .openParen => some (.call, .call)
    | _ => none
  typeStart?
    | .identifier => some .name
    | .wordProc => some .proc
    | _ => none
  typeFollow?
    | .openBracket => some .call
    | _ => none
  item?
    | .wordProc => some .procedure
    | .wordConst => some .constant
    | .wordVar => some .mutable
    | .wordEntry => some .entry
    | _ => none

/-- The grammar in which no token begins or continues anything. -/
def empty : Grammar where
  start? _ := none
  follow? _ := none
  typeStart? _ := none
  typeFollow? _ := none
  item? _ := none

/-- The power with which a kind continues an expression. -/
def power (g : Grammar) (kind : Kind) : Power := ((g.follow? kind).map Prod.fst).getD .lowest

end Grammar

end RootedC
