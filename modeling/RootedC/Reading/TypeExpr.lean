import RootedC.Reading.Grammar
import RootedC.Reading.Outcome
import RootedC.Syntax.TypeExpr

/-! Reading types as they are written. -/
namespace RootedC.TypeExpr

open TokenStream

/-- A type name. -/
def readName (s : TokenStream) : Outcome s.size TypeExpr :=
  (s.need .identifier).andThen fun t s₁ h₁ =>
  .ok (.name t.value t.span.start) s₁ h₁

mutual

/-- A type and, as far as `power` allows, the array types made of it. -/
def read (g : Grammar) (power : Power) (s : TokenStream) : Outcome s.size TypeExpr :=
  match g.typeStart? s.current.kind with
  | none => s.unexpectedThere "expected a type"
  | some .name =>
    (readName s).andThen fun a s₁ h₁ => (readFollow g power a s₁).widen h₁
  | some .proc =>
    (readProc g s).andThen fun a s₁ h₁ => (readFollow g power a s₁).widen h₁
termination_by (s.size, 1)

/-- The array brackets behind the type `element`. -/
def readFollow (g : Grammar) (power : Power) (element : TypeExpr) (s : TokenStream) :
    Outcome (s.size + 1) TypeExpr :=
  match g.typeFollow? s.current.kind with
  | none => .ok element s s.size_lt_succ
  | some p =>
    if p.rank ≤ power.rank then .ok element s s.size_lt_succ
    else
      (s.need .openBracket).andThen fun _ s₁ h₁ =>
      (s₁.need .closeBracket).andThen fun _ s₂ h₂ =>
      (readFollow g power (.array element element.position) s₂).widen
        (size_lt_succ_of_lt₂ h₁ h₂)
termination_by (s.size, 0)

/-- A procedure type: `proc(T, ...) -> R`. -/
def readProc (g : Grammar) (s : TokenStream) : Outcome s.size TypeExpr :=
  (s.need .wordProc).andThen fun t s₁ h₁ =>
  (s₁.need .openParen).andThen fun _ s₂ h₂ =>
  (readList g s₂).andThen fun parameters s₃ h₃ =>
  (s₃.need .closeParen).andThen fun _ s₄ h₄ =>
  (s₄.need .arrow).andThen fun _ s₅ h₅ =>
  (read g .lowest s₅).andThen fun result s₆ h₆ =>
  .ok (.proc parameters result t.span.start) s₆ (by omega)
termination_by (s.size, 0)

/-- Types divided by commas, up to a closing parenthesis. -/
def readList (g : Grammar) (s : TokenStream) : Outcome (s.size + 1) (List TypeExpr) :=
  if s.current.kind = .closeParen then .ok [] s s.size_lt_succ
  else
    (read g .lowest s).andThen fun a s₁ h₁ =>
    match s₁.take? .comma with
    | none => .ok [a] s₁ (size_lt_succ_of_lt h₁)
    | some ⟨_, s₂, h₂⟩ =>
      (readList g s₂).andThen fun more s₃ h₃ =>
      .ok (a :: more) s₃ (size_lt_succ_trans₃ h₁ h₂ h₃)
termination_by (s.size, 2)

end

/-- A type behind a token of the given kind, if one stands there. -/
def readAfter? (g : Grammar) (kind : Kind) (s : TokenStream) :
    Outcome (s.size + 1) (Option TypeExpr) :=
  match s.take? kind with
  | none => .ok none s s.size_lt_succ
  | some ⟨_, s₁, h₁⟩ =>
    (read g .lowest s₁).andThen fun a s₂ h₂ =>
    .ok (some a) s₂ (size_lt_succ_of_lt₂ h₁ h₂)

end RootedC.TypeExpr
