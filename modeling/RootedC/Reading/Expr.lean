import RootedC.Reading.TypeExpr
import RootedC.Syntax.Expr
import RootedC.Text.Decimal

/-!
Reading expressions by precedence: a form that a token begins, then the operators and calls behind
it as long as they bind stronger than the power asked for. A block is a list of expressions; a
semicolon before its closing brace adds a unit.
-/
namespace RootedC

open TokenStream

/-- A literal or a name. -/
def Expr.readPrimary (s : TokenStream) : Outcome s.size Expr :=
  match s.next? with
  | none => s.unexpected
  | some ⟨t, s₁, h₁⟩ =>
    match t.kind with
    | .number =>
      match Text.int32? t.value with
      | some value => .ok (.number value t.span) s₁ h₁
      | none => .fail (s.here (.badNumber t.value)) s
    | .identifier => .ok (.name t.value t.span) s₁ h₁
    | .string => .ok (.text t.value t.span) s₁ h₁
    | .wordTrue => .ok (.boolean true t.span) s₁ h₁
    | .wordFalse => .ok (.boolean false t.span) s₁ h₁
    | _ => s.unexpected

namespace Parameter

/-- Parameters divided by commas, up to a closing parenthesis. -/
def readList (g : Grammar) (s : TokenStream) : Outcome (s.size + 1) (List Parameter) :=
  if s.current.kind = .closeParen then .ok [] s s.size_lt_succ
  else
    (s.need .identifier).andThen fun t s₁ h₁ =>
    (TypeExpr.readAfter? g .colon s₁).andThen fun type? s₂ h₂ =>
    let parameter : Parameter := ⟨t.value, type?, ⟨t.span.start, s₂.lastEnd⟩⟩
    match s₂.take? .comma with
    | none => .ok [parameter] s₂ (size_lt_succ_trans h₁ h₂)
    | some ⟨_, s₃, h₃⟩ =>
      (readList g s₃).andThen fun more s₄ h₄ =>
      .ok (parameter :: more) s₄ (by omega)
termination_by s.size

/-- A parameter list with its parentheses. -/
def readAll (g : Grammar) (s : TokenStream) : Outcome s.size (List Parameter) :=
  (s.need .openParen).andThen fun _ s₁ h₁ =>
  (readList g s₁).andThen fun parameters s₂ h₂ =>
  (s₂.need .closeParen).andThen fun _ s₃ h₃ =>
  .ok parameters s₃ (by omega)

end Parameter

namespace Expr

mutual

/-- An expression whose operators bind stronger than `power`. -/
def read (g : Grammar) (power : Power) (s : TokenStream) : Outcome s.size Expr :=
  (readStart g s).andThen fun left s₁ h₁ =>
  (readFollow g power left s₁).widen h₁
termination_by (s.size, 2)

/-- The form that the current token begins. -/
def readStart (g : Grammar) (s : TokenStream) : Outcome s.size Expr :=
  match g.start? s.current.kind with
  | none => s.unexpected
  | some .primary => readPrimary s
  | some .unary => readUnary g s
  | some .grouping => readGrouping g s
  | some .block => readBlock g s
  | some .branch => readBranch g s
  | some .letIn => readLet g s
  | some .procedure => readProcedure g s
termination_by (s.size, 1)

/-- The operators and calls behind the expression `left`. -/
def readFollow (g : Grammar) (power : Power) (left : Expr) (s : TokenStream) :
    Outcome (s.size + 1) Expr :=
  match s.next? with
  | none => .ok left s s.size_lt_succ
  | some ⟨t, s₁, h₁⟩ =>
    match g.follow? t.kind with
    | none => .ok left s s.size_lt_succ
    | some (p, form) =>
      if p.rank ≤ power.rank then .ok left s s.size_lt_succ
      else match form with
        | .binary =>
          (read g p s₁).andThen fun right s₂ h₂ =>
          (readFollow g power (.binary left t right ⟨left.span.start, right.span.stop⟩) s₂).widen
            (size_lt_succ_of_lt₂ h₁ h₂)
        | .call =>
          (readArguments g s₁).andThen fun arguments s₂ h₂ =>
          (s₂.need .closeParen).andThen fun close s₃ h₃ =>
          (readFollow g power (.call left arguments ⟨left.span.start, close.span.stop⟩) s₃).widen
            (by omega)
termination_by (s.size, 0)

/-- Arguments divided by commas, up to a closing parenthesis. -/
def readArguments (g : Grammar) (s : TokenStream) : Outcome (s.size + 1) (List Expr) :=
  if s.current.kind = .closeParen then .ok [] s s.size_lt_succ
  else
    (read g .lowest s).andThen fun argument s₁ h₁ =>
    match s₁.take? .comma with
    | none => .ok [argument] s₁ (size_lt_succ_of_lt h₁)
    | some ⟨_, s₂, h₂⟩ =>
      (readArguments g s₂).andThen fun more s₃ h₃ =>
      .ok (argument :: more) s₃ (size_lt_succ_trans₃ h₁ h₂ h₃)
termination_by (s.size, 3)

/-- The current token, taken for a unary operator, and its operand. -/
def readUnary (g : Grammar) (s : TokenStream) : Outcome s.size Expr :=
  match s.next? with
  | none => s.advance.unexpected
  | some ⟨t, s₁, h₁⟩ =>
    (read g .unary s₁).andThen fun operand s₂ h₂ =>
    .ok (.unary t operand ⟨t.span.start, operand.span.stop⟩) s₂
      (size_lt_trans h₁ h₂)
termination_by (s.size, 0)

/-- What stands between the current token and a closing parenthesis; nothing there is a unit. -/
def readGrouping (g : Grammar) (s : TokenStream) : Outcome s.size Expr :=
  match s.next? with
  | none => s.advance.unexpected
  | some ⟨t, s₁, h₁⟩ =>
    match s₁.take? .closeParen with
    | some ⟨close, s₂, h₂⟩ => .ok (.unit ⟨t.span.start, close.span.stop⟩) s₂
      (size_lt_trans h₁ h₂)
    | none =>
      (read g .lowest s₁).andThen fun e s₂ h₂ =>
      (s₂.need .closeParen).andThen fun _ s₃ h₃ =>
      .ok e s₃ (size_lt_trans₃ h₁ h₂ h₃)
termination_by (s.size, 0)

/-- A block with its braces. -/
def readBlock (g : Grammar) (s : TokenStream) : Outcome s.size Expr :=
  (s.need .openCurly).andThen fun opening s₁ h₁ =>
  (readBody g s₁).andThen fun body s₂ h₂ =>
  (s₂.need .closeCurly).andThen fun closing s₃ h₃ =>
  .ok (.block body ⟨opening.span.start, closing.span.stop⟩) s₃ (by omega)
termination_by (s.size, 0)

/-- The expressions of a block, up to its closing brace. -/
def readBody (g : Grammar) (s : TokenStream) : Outcome (s.size + 1) (List Expr) :=
  if s.current.kind = .closeCurly then .ok [] s s.size_lt_succ
  else
    (read g .lowest s).andThen fun e s₁ h₁ =>
    match s₁.take? .semicolon with
    | some ⟨t, s₂, h₂⟩ =>
      if s₂.current.kind = .closeCurly then .ok [e, .unit t.span] s₂ (size_lt_succ_of_lt₂ h₁ h₂)
      else
        (readBody g s₂).andThen fun more s₃ h₃ =>
        .ok (e :: more) s₃ (size_lt_succ_trans₃ h₁ h₂ h₃)
    | none =>
      if s₁.current.kind = .closeCurly then .ok [e] s₁ (size_lt_succ_of_lt h₁)
      else s₁.unexpectedThere "expected `;` or `\x7d`"
termination_by (s.size, 3)

/-- A conditional, with or without an else; the else arm is a block or another conditional. -/
def readBranch (g : Grammar) (s : TokenStream) : Outcome s.size Expr :=
  (s.need .wordIf).andThen fun t s₁ h₁ =>
  (read g .lowest s₁).andThen fun condition s₂ h₂ =>
  (readBlock g s₂).andThen fun thenArm s₃ h₃ =>
  match s₃.take? .wordElse with
  | none =>
    .ok (.branch condition thenArm none ⟨t.span.start, thenArm.span.stop⟩) s₃
      (size_lt_trans₃ h₁ h₂ h₃)
  | some ⟨_, s₄, h₄⟩ =>
    if s₄.current.kind = .wordIf then
      (readBranch g s₄).andThen fun elseArm s₅ h₅ =>
      .ok (.branch condition thenArm (some elseArm) ⟨t.span.start, elseArm.span.stop⟩) s₅
        (by omega)
    else
      (readBlock g s₄).andThen fun elseArm s₅ h₅ =>
      .ok (.branch condition thenArm (some elseArm) ⟨t.span.start, elseArm.span.stop⟩) s₅
        (by omega)
termination_by (s.size, 0)

/-- A let: declarations and the block they are seen in. -/
def readLet (g : Grammar) (s : TokenStream) : Outcome s.size Expr :=
  (s.need .wordLet).andThen fun t s₁ h₁ =>
  (readDeclarations g s₁).andThen fun declarations s₂ h₂ =>
  (readBlock g s₂).andThen fun body s₃ h₃ =>
  .ok (.letIn declarations body ⟨t.span.start, body.span.stop⟩) s₃
    (size_lt_trans₃ h₁ h₂ h₃)
termination_by (s.size, 0)

/-- One or more declarations divided by commas. -/
def readDeclarations (g : Grammar) (s : TokenStream) :
    Outcome s.size (List (Declaration Expr)) :=
  (s.need .identifier).andThen fun t s₁ h₁ =>
  (TypeExpr.readAfter? g .colon s₁).andThen fun type? s₂ h₂ =>
  (s₂.need .assign).andThen fun _ s₃ h₃ =>
  (read g .lowest s₃).andThen fun value s₄ h₄ =>
  let declaration := ⟨t.value, type?, value, ⟨t.span.start, value.span.stop⟩⟩
  match s₄.take? .comma with
  | none => .ok [declaration] s₄ (by omega)
  | some ⟨_, s₅, h₅⟩ =>
    (readDeclarations g s₅).andThen fun more s₆ h₆ =>
    .ok (declaration :: more) s₆ (by omega)
termination_by (s.size, 0)

/-- A procedure literal. -/
def readProcedure (g : Grammar) (s : TokenStream) : Outcome s.size Expr :=
  (s.need .wordProc).andThen fun t s₁ h₁ =>
  (readSignature g t.span.start s₁).andThen fun literal s₂ h₂ =>
  .ok (.procedure literal) s₂ (size_lt_trans h₁ h₂)
termination_by (s.size, 0)

/-- Parameters, result type and body of a procedure that starts at `start`. -/
def readSignature (g : Grammar) (start : Position) (s : TokenStream) :
    Outcome s.size (Procedure Expr) :=
  (Parameter.readAll g s).andThen fun parameters s₁ h₁ =>
  (TypeExpr.readAfter? g .arrow s₁).andThen fun result? s₂ h₂ =>
  (readBlock g s₂).andThen fun body s₃ h₃ =>
  .ok ⟨parameters, result?, body, ⟨start, body.span.stop⟩⟩ s₃ (by omega)
termination_by (s.size, 0)

end

end Expr

end RootedC
