import RootedC.Reading.Expr
import RootedC.Syntax.Module

/-! Reading top-level items and whole modules. -/
namespace RootedC

open TokenStream

namespace Item

/-- `proc name(params) -> R block`. -/
def readProcedure (g : Grammar) (s : TokenStream) : Outcome s.size Item :=
  (s.need .wordProc).andThen fun t s₁ h₁ =>
  (s₁.needOr .identifier (s₁.here (.unexpectedThere s₁.current.value
    "expected identifier after `proc` at the top level"))).andThen fun name s₂ h₂ =>
  (Expr.readSignature g t.span.start s₂).andThen fun literal s₃ h₃ =>
  .ok (.procedure name.value literal ⟨t.span.start, literal.span.stop⟩) s₃
    (size_lt_trans₃ h₁ h₂ h₃)

/-- What `const` and `var` have in common: `name: T = value;`. -/
def readBinding (g : Grammar) (s : TokenStream) :
    Outcome s.size (String × Option TypeExpr × Expr) :=
  (s.needOr .identifier (s.here (.unexpectedThere s.current.value
    "expected identifier during variable declaration"))).andThen fun name s₁ h₁ =>
  (TypeExpr.readAfter? g .colon s₁).andThen fun type? s₂ h₂ =>
  (s₂.need .assign).andThen fun _ s₃ h₃ =>
  (Expr.read g .lowest s₃).andThen fun value s₄ h₄ =>
  (s₄.need .semicolon).andThen fun _ s₅ h₅ =>
  .ok (name.value, type?, value) s₅ (by omega)

def readConstant (g : Grammar) (s : TokenStream) : Outcome s.size Item :=
  (s.need .wordConst).andThen fun t s₁ h₁ =>
  (readBinding g s₁).andThen fun (name, type?, value) s₂ h₂ =>
  .ok (.constant name type? value ⟨t.span.start, s₂.lastEnd⟩) s₂ (size_lt_trans h₁ h₂)

def readMutable (g : Grammar) (s : TokenStream) : Outcome s.size Item :=
  (s.need .wordVar).andThen fun t s₁ h₁ =>
  (readBinding g s₁).andThen fun (name, type?, value) s₂ h₂ =>
  .ok (.mutable name type? value ⟨t.span.start, s₂.lastEnd⟩) s₂ (size_lt_trans h₁ h₂)

def readEntry (g : Grammar) (s : TokenStream) : Outcome s.size Item :=
  (s.need .wordEntry).andThen fun t s₁ h₁ =>
  (Expr.readBlock g s₁).andThen fun body s₂ h₂ =>
  .ok (.entry body ⟨t.span.start, body.span.stop⟩) s₂ (size_lt_trans h₁ h₂)

def read (g : Grammar) (s : TokenStream) : Outcome s.size Item :=
  match g.item? s.current.kind with
  | none => s.unexpectedThere "expected `proc`, `const`, `var` or `entry`"
  | some .procedure => readProcedure g s
  | some .constant => readConstant g s
  | some .mutable => readMutable g s
  | some .entry => readEntry g s

/-- The items up to the end of input. Only one of them may be an entry block, `seen` tells whether
one was read before. -/
def readAll (g : Grammar) (seen : Bool) (s : TokenStream) : Outcome (s.size + 1) (List Item) :=
  if s.atEnd then .ok [] s s.size_lt_succ
  else
    (read g s).andThen fun item s₁ h₁ =>
    if seen && item.isEntry then .fail ⟨.secondEntry, item.span.start⟩ s₁
    else
      (readAll g (seen || item.isEntry) s₁).andThen fun more s₂ h₂ =>
      .ok (item :: more) s₂ (size_lt_succ_trans h₁ h₂)
termination_by s.size

end Item

namespace Module

/-- The module of a list of tokens. Its span runs from the start of `file` to the end of input. -/
def ofTokens (tokens : List Token) (file : String) : Except Diagnostic Module :=
  match Item.readAll .standard false (.ofTokens tokens file) with
  | .ok items s _ => .ok ⟨items, ⟨⟨0, file⟩, s.current.span.start⟩⟩
  | .fail d _ => .error d

end Module

end RootedC
