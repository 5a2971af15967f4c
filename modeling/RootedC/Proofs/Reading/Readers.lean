import RootedC.Proofs.Reading.Phrase
import RootedC.Reading.Module

/-!
What the readers of the standard grammar accept where they have a choice: which token they look at
and what they read then. The readers without a choice are left as they are written.
-/
namespace RootedC

open TokenStream Outcome

variable {s s' : TokenStream} {k : Kind}

theorem TokenStream.Takes.kind_eq {t : Token} (h : s.Takes k t s') : s.current.kind = k := by
  rw [h.1.current_eq, h.2]

/-- What starts by taking a token of a kind stands at such a token. -/
theorem Outcome.kind_of_need {α : Type} {n : Nat} {a : α}
    {f : (t : Token) → (s₁ : TokenStream) → s₁.size < s.size → Outcome n α}
    (h : ((s.need k).andThen f).Gives a s') : s.current.kind = k := by
  obtain ⟨t, s₁, ht, -⟩ := gives_andThen.mp h
  exact (gives_need.mp ht).kind_eq

/-- No operator or call with more power than `p` comes next. -/
def TokenStream.Stops (s : TokenStream) (p : Power) : Prop :=
  ∀ q form, Grammar.standard.follow? s.current.kind = some (q, form) → q.rank ≤ p.rank

namespace Grammar

theorem follow?_eq (k : Kind) : standard.follow? k =
    match BinaryOp.ofKind? k with
    | some op => some (op.power, .binary)
    | none => if k = .openParen then some (.call, .call) else none := by
  cases k <;> rfl

theorem follow?_binary {q : Power} :
    standard.follow? k = some (q, .binary) ↔ ∃ op, BinaryOp.ofKind? k = some op ∧ op.power = q := by
  rw [follow?_eq]
  cases BinaryOp.ofKind? k with
  | none =>
    by_cases hk : k = .openParen <;> simp [hk]
  | some op => simp

theorem follow?_call {q : Power} :
    standard.follow? k = some (q, .call) ↔ k = .openParen ∧ q = .call := by
  rw [follow?_eq]
  cases hop : BinaryOp.ofKind? k with
  | none => simp [eq_comm]
  | some op =>
    have hk : k ≠ .openParen := by
      rintro rfl
      cases hop
    simp [hk]

theorem kind_of_typeStart? (h : standard.typeStart? k ≠ none) :
    k = .identifier ∨ k = .wordProc := by
  revert h
  cases k <;> decide

end Grammar

/-- A list whose first element has been read: the rest stands behind a comma, if there is one. -/
inductive CommaList {α : Type} (more : TokenStream → List α → TokenStream → Prop) (a : α)
    (s : TokenStream) : List α → TokenStream → Prop
  | last (h : s.current.kind ≠ .comma) : CommaList more a s [a] s
  | cons {c : Token} {s₁ s' : TokenStream} {as : List α} (hc : s.Takes .comma c s₁)
    (hm : more s₁ as s') : CommaList more a s (a :: as) s'

theorem gives_commaList {α : Type} {n : Nat} {bound : TokenStream → Nat} {a : α} {as : List α}
    {readMore : (s : TokenStream) → Outcome (bound s) (List α)} {h : s.size < n}
    {h' : ∀ s₁ s₂ : TokenStream, s₁.size < s.size → s₂.size < bound s₁ → s₂.size < n} :
    (match s.take? .comma with
      | none => ok [a] s h
      | some ⟨_, s₁, h₁⟩ => (readMore s₁).andThen fun as s₂ h₂ =>
        ok (a :: as) s₂ (h' s₁ s₂ h₁ h₂)).Gives as s' ↔
    CommaList (fun s => (readMore s).Gives) a s as s' := by
  constructor
  · intro hg
    rcases (gives_take? (by decide)).mp hg with ⟨hne, hg⟩ | ⟨c, s₁, hlt, hc, hg⟩
    · obtain ⟨rfl, rfl⟩ := gives_ok.mp hg
      exact .last hne
    · obtain ⟨as, s₂, has, hg⟩ := gives_andThen.mp hg
      obtain ⟨rfl, rfl⟩ := gives_ok.mp hg
      exact .cons hc has
  · intro hl
    refine (gives_take? (by decide)).mpr ?_
    cases hl with
    | last hne => exact .inl ⟨hne, gives_ok.mpr ⟨rfl, rfl⟩⟩
    | @cons c s₁ _ as hc hm =>
      exact .inr ⟨c, s₁, hc.1.size_lt, hc, gives_andThen.mpr ⟨as, s', hm, gives_ok.mpr ⟨rfl, rfl⟩⟩⟩

namespace TypeExpr

variable {a b : TypeExpr} {as : List TypeExpr}

/-- A type starts with a name or with `proc`. -/
theorem kind_of_read (h : (read .standard .lowest s).Gives a s') :
    s.current.kind = .identifier ∨ s.current.kind = .wordProc := by
  refine Grammar.kind_of_typeStart? fun hnone => ?_
  rw [read, hnone] at h
  exact not_gives_unexpectedThere h

theorem read_gives : (read .standard .lowest s).Gives a s' ↔ ∃ b s₁,
    ((readName s).Gives b s₁ ∨ (readProc .standard s).Gives b s₁) ∧
      (readFollow .standard .lowest b s₁).Gives a s' := by
  have hname : ∀ {b s₁}, (readName s).Gives b s₁ → s.current.kind = .identifier := by
    intro b s₁ h
    exact kind_of_need h
  have hproc : ∀ {b s₁}, (readProc .standard s).Gives b s₁ → s.current.kind = .wordProc := by
    intro b s₁ h
    rw [readProc] at h
    exact kind_of_need h
  rw [read]
  constructor
  · intro h
    split at h
    · exact absurd h not_gives_unexpectedThere
    · obtain ⟨b, s₁, hb, hf⟩ := gives_andThen.mp h
      exact ⟨b, s₁, .inl hb, gives_widen.mp hf⟩
    · obtain ⟨b, s₁, hb, hf⟩ := gives_andThen.mp h
      exact ⟨b, s₁, .inr hb, gives_widen.mp hf⟩
  · rintro ⟨b, s₁, hb | hb, hf⟩
    · rw [hname hb]
      exact gives_andThen.mpr ⟨b, s₁, hb, gives_widen.mpr hf⟩
    · rw [hproc hb]
      exact gives_andThen.mpr ⟨b, s₁, hb, gives_widen.mpr hf⟩

theorem readFollow_gives : (readFollow .standard .lowest b s).Gives a s' ↔
    (s.current.kind ≠ .openBracket ∧ b = a ∧ s = s') ∨
      ∃ o s₁ c s₂, s.Takes .openBracket o s₁ ∧ s₁.Takes .closeBracket c s₂ ∧
        (readFollow .standard .lowest (.array b b.position) s₂).Gives a s' := by
  rw [readFollow]
  by_cases hk : s.current.kind = .openBracket
  · have hfollow : Grammar.standard.typeFollow? s.current.kind = some .call := by rw [hk]; rfl
    have hrank : ¬ Power.call.rank ≤ Power.lowest.rank := by decide
    simp only [hfollow, hrank, if_false, gives_andThen, gives_need, gives_widen, exists_prop]
    constructor
    · rintro ⟨o, s₁, ho, c, s₂, hc, hf⟩
      exact .inr ⟨o, s₁, c, s₂, ho, hc, hf⟩
    · rintro (⟨hne, -⟩ | ⟨o, s₁, c, s₂, ho, hc, hf⟩)
      · exact absurd hk hne
      · exact ⟨o, s₁, ho, c, s₂, hc, hf⟩
  · have hfollow : Grammar.standard.typeFollow? s.current.kind = none := by
      cases hs : s.current.kind <;> first | rfl | exact absurd hs hk
    simp only [hfollow, gives_ok]
    constructor
    · exact fun h => .inl ⟨hk, h⟩
    · rintro (⟨-, h⟩ | ⟨o, s₁, c, s₂, ho, -⟩)
      · exact h
      · exact absurd ho.kind_eq hk

theorem readList_gives : (readList .standard s).Gives as s' ↔
    (s.current.kind = .closeParen ∧ as = [] ∧ s' = s) ∨ ∃ a s₁,
      (read .standard .lowest s).Gives a s₁ ∧
        CommaList (fun s => (readList .standard s).Gives) a s₁ as s' := by
  rw [readList]
  by_cases hk : s.current.kind = .closeParen
  · rw [if_pos hk, gives_ok]
    constructor
    · rintro ⟨rfl, rfl⟩
      exact .inl ⟨hk, rfl, rfl⟩
    · rintro (⟨-, rfl, rfl⟩ | ⟨a, s₁, ha, -⟩)
      · exact ⟨rfl, rfl⟩
      · rcases kind_of_read ha with h | h <;> rw [hk] at h <;> cases h
  · rw [if_neg hk, gives_andThen]
    constructor
    · rintro ⟨a, s₁, ha, h⟩
      exact .inr ⟨a, s₁, ha, gives_commaList.mp h⟩
    · rintro (⟨h, -⟩ | ⟨a, s₁, ha, h⟩)
      · exact absurd h hk
      · exact ⟨a, s₁, ha, gives_commaList.mpr h⟩

theorem readAfter?_gives {a? : Option TypeExpr} (hk : k ≠ .endOfInput) :
    (readAfter? .standard k s).Gives a? s' ↔
      (s.current.kind ≠ k ∧ a? = none ∧ s' = s) ∨ ∃ t s₁ a,
        s.Takes k t s₁ ∧ (read .standard .lowest s₁).Gives a s' ∧ a? = some a := by
  unfold readAfter?
  constructor
  · intro h
    rcases (gives_take? hk).mp h with ⟨hne, h⟩ | ⟨t, s₁, hlt, ht, h⟩
    · obtain ⟨rfl, rfl⟩ := gives_ok.mp h
      exact .inl ⟨hne, rfl, rfl⟩
    · obtain ⟨a, s₂, ha, h⟩ := gives_andThen.mp h
      obtain ⟨rfl, rfl⟩ := gives_ok.mp h
      exact .inr ⟨t, s₁, a, ht, ha, rfl⟩
  · intro h
    refine (gives_take? hk).mpr ?_
    rcases h with ⟨hne, rfl, rfl⟩ | ⟨t, s₁, a, ht, ha, rfl⟩
    · exact .inl ⟨hne, gives_ok.mpr ⟨rfl, rfl⟩⟩
    · exact .inr ⟨t, s₁, ht.1.size_lt, ht, gives_andThen.mpr ⟨a, s', ha, gives_ok.mpr ⟨rfl, rfl⟩⟩⟩

end TypeExpr

theorem Parameter.readList_gives {ps : List Parameter} : (readList .standard s).Gives ps s' ↔
    (s.current.kind = .closeParen ∧ ps = [] ∧ s' = s) ∨ ∃ t s₁ type? s₂,
      s.Takes .identifier t s₁ ∧ (TypeExpr.readAfter? .standard .colon s₁).Gives type? s₂ ∧
        CommaList (fun s => (readList .standard s).Gives)
          ⟨t.value, type?, ⟨t.span.start, s₂.lastEnd⟩⟩ s₂ ps s' := by
  rw [readList]
  by_cases hk : s.current.kind = .closeParen
  · rw [if_pos hk, gives_ok]
    constructor
    · rintro ⟨rfl, rfl⟩
      exact .inl ⟨hk, rfl, rfl⟩
    · rintro (⟨-, rfl, rfl⟩ | ⟨t, s₁, type?, s₂, ht, -⟩)
      · exact ⟨rfl, rfl⟩
      · have := ht.kind_eq
        rw [hk] at this
        cases this
  · rw [if_neg hk, gives_andThen]
    constructor
    · rintro ⟨t, s₁, ht, h⟩
      obtain ⟨type?, s₂, htype, h⟩ := gives_andThen.mp h
      exact .inr ⟨t, s₁, type?, s₂, gives_need.mp ht, htype, gives_commaList.mp h⟩
    · rintro (⟨h, -⟩ | ⟨t, s₁, type?, s₂, ht, htype, h⟩)
      · exact absurd h hk
      · exact ⟨t, s₁, gives_need.mpr ht,
          gives_andThen.mpr ⟨type?, s₂, htype, gives_commaList.mpr h⟩⟩

namespace Expr

variable {e : Expr} {es : List Expr}

/-- The literal or name that a token is. -/
def ofToken? (t : Token) : Option Expr :=
  match t.kind with
  | .number => (Text.int32? t.value).map (.number · t.span)
  | .identifier => some (.name t.value t.span)
  | .string => some (.text t.value t.span)
  | .wordTrue => some (.boolean true t.span)
  | .wordFalse => some (.boolean false t.span)
  | _ => none

theorem readPrimary_gives :
    (readPrimary s).Gives e s' ↔ ∃ t, s.Consumes [t] s' ∧ ofToken? t = some e := by
  unfold readPrimary
  cases hn : s.next? with
  | none =>
    constructor
    · exact fun h => absurd h not_gives_unexpected
    · rintro ⟨t, ht, -⟩
      obtain ⟨_, h⟩ := ht.next?_eq
      rw [hn] at h
      cases h
  | some x =>
    obtain ⟨t, s₁, hlt⟩ := x
    have ht : s.Consumes [t] s₁ := .of_next? hn
    have huniq : (∃ t', s.Consumes [t'] s' ∧ ofToken? t' = some e) ↔
        ofToken? t = some e ∧ s₁ = s' := by
      constructor
      · rintro ⟨t', ht', he⟩
        obtain rfl : t = t' := ht.current_eq.symm.trans ht'.current_eq
        exact ⟨he, ht.unique ht'⟩
      · rintro ⟨he, rfl⟩
        exact ⟨t, ht, he⟩
    rw [huniq]
    cases hk : t.kind <;> simp only [hk, ofToken?, gives_ok, not_gives_unexpected, reduceCtorEq,
      false_and, Option.some.injEq]
    cases hv : Text.int32? t.value <;> simp

/-- How an expression can start. -/
inductive Started (s : TokenStream) : Expr → TokenStream → Prop
  | primary {t : Token} {e : Expr} {s' : TokenStream} (ht : s.Consumes [t] s')
    (he : ofToken? t = some e) : Started s e s'
  | unary {t : Token} {op : UnaryOp} {x : Expr} {s₁ s' : TokenStream} (ht : s.Consumes [t] s₁)
    (hop : UnaryOp.ofKind? t.kind = some op) (hx : (read .standard .unary s₁).Gives x s') :
    Started s (.unary t x ⟨t.span.start, x.span.stop⟩) s'
  | unit {o c : Token} {s₁ s' : TokenStream} (ho : s.Takes .openParen o s₁)
    (hc : s₁.Takes .closeParen c s') : Started s (.unit ⟨o.span.start, c.span.stop⟩) s'
  | grouping {o c : Token} {e : Expr} {s₁ s₂ s' : TokenStream} (ho : s.Takes .openParen o s₁)
    (he : (read .standard .lowest s₁).Gives e s₂) (hc : s₂.Takes .closeParen c s') : Started s e s'
  | block {e : Expr} {s' : TokenStream} (h : (readBlock .standard s).Gives e s') : Started s e s'
  | branch {e : Expr} {s' : TokenStream} (h : (readBranch .standard s).Gives e s') : Started s e s'
  | letIn {e : Expr} {s' : TokenStream} (h : (readLet .standard s).Gives e s') : Started s e s'
  | procedure {e : Expr} {s' : TokenStream} (h : (readProcedure .standard s).Gives e s') :
    Started s e s'

theorem kind_of_readBlock (h : (readBlock .standard s).Gives e s') :
    s.current.kind = .openCurly := by
  rw [readBlock] at h
  exact kind_of_need h

theorem kind_of_readBranch (h : (readBranch .standard s).Gives e s') :
    s.current.kind = .wordIf := by
  rw [readBranch] at h
  exact kind_of_need h

theorem kind_of_readLet (h : (readLet .standard s).Gives e s') : s.current.kind = .wordLet := by
  rw [readLet] at h
  exact kind_of_need h

theorem kind_of_readProcedure (h : (readProcedure .standard s).Gives e s') :
    s.current.kind = .wordProc := by
  rw [readProcedure] at h
  exact kind_of_need h

/-- An expression starts with a token that starts expressions. -/
theorem start?_of_read {p : Power} (h : (read .standard p s).Gives e s') :
    Grammar.standard.start? s.current.kind ≠ none := by
  rw [read, gives_andThen] at h
  obtain ⟨left, s₁, hleft, -⟩ := h
  intro hnone
  rw [readStart, hnone] at hleft
  exact not_gives_unexpected hleft

theorem start?_unary : Grammar.standard.start? k = some .unary ↔
    ∃ op, UnaryOp.ofKind? k = some op := by
  rw [← Option.isSome_iff_exists]
  cases k <;> decide

theorem start?_grouping : Grammar.standard.start? k = some .grouping ↔ k = .openParen := by
  cases k <;> decide

theorem start?_of_ofToken? {t : Token} (h : ofToken? t = some e) :
    Grammar.standard.start? t.kind = some .primary := by
  unfold ofToken? at h
  split at h <;> simp_all [Grammar.standard]

theorem readUnary_gives : (readUnary .standard s).Gives e s' ↔ ∃ t s₁ x, s.Consumes [t] s₁ ∧
    (read .standard .unary s₁).Gives x s' ∧ e = .unary t x ⟨t.span.start, x.span.stop⟩ := by
  rw [readUnary]
  constructor
  · intro h
    split at h
    · exact absurd h not_gives_unexpected
    · next t s₁ hlt hn =>
      obtain ⟨x, s₂, hx, h⟩ := gives_andThen.mp h
      obtain ⟨rfl, rfl⟩ := gives_ok.mp h
      exact ⟨t, s₁, x, .of_next? hn, hx, rfl⟩
  · rintro ⟨t, s₁, x, ht, hx, rfl⟩
    obtain ⟨hlt, hn⟩ := ht.next?_eq
    simp only [hn]
    exact gives_andThen.mpr ⟨x, s', hx, gives_ok.mpr ⟨rfl, rfl⟩⟩

theorem readGrouping_gives : (readGrouping .standard s).Gives e s' ↔
    (∃ o s₁ c, s.Consumes [o] s₁ ∧ s₁.Takes .closeParen c s' ∧
      e = .unit ⟨o.span.start, c.span.stop⟩) ∨
    ∃ o s₁ s₂ c, s.Consumes [o] s₁ ∧ (read .standard .lowest s₁).Gives e s₂ ∧
      s₂.Takes .closeParen c s' := by
  rw [readGrouping]
  constructor
  · intro h
    split at h
    · exact absurd h not_gives_unexpected
    · next o s₁ hlt hn =>
      split at h
      · next c s₂ hlt' hc =>
        obtain ⟨rfl, rfl⟩ := gives_ok.mp h
        exact .inl ⟨o, s₁, c, .of_next? hn, .of_take? hc, rfl⟩
      · simp only [gives_andThen, gives_need, gives_ok, exists_prop] at h
        obtain ⟨e', s₂, he, c, s₃, hc, rfl, rfl⟩ := h
        exact .inr ⟨o, s₁, s₂, c, .of_next? hn, he, hc⟩
  · rintro (⟨o, s₁, c, ho, hc, rfl⟩ | ⟨o, s₁, s₂, c, ho, he, hc⟩)
    · obtain ⟨hlt, hn⟩ := ho.next?_eq
      obtain ⟨hlt', htake⟩ := hc.take?_eq
      simp only [hn, htake]
      exact gives_ok.mpr ⟨rfl, rfl⟩
    · obtain ⟨hlt, hn⟩ := ho.next?_eq
      have hne : s₁.current.kind ≠ .closeParen := by
        intro hk
        have hstart := start?_of_read he
        rw [hk] at hstart
        exact hstart rfl
      simp only [hn, take?_eq_none hne]
      exact gives_andThen.mpr ⟨e, s₂, he,
        gives_andThen.mpr ⟨c, s', gives_need.mpr hc, gives_ok.mpr ⟨rfl, rfl⟩⟩⟩

theorem readStart_gives : (readStart .standard s).Gives e s' ↔ Started s e s' := by
  rw [readStart]
  constructor
  · intro h
    split at h
    · exact absurd h not_gives_unexpected
    · obtain ⟨t, ht, he⟩ := readPrimary_gives.mp h
      exact .primary ht he
    · next hstart =>
      obtain ⟨t, s₁, x, ht, hx, rfl⟩ := readUnary_gives.mp h
      rw [ht.current_eq] at hstart
      obtain ⟨op, hop⟩ := start?_unary.mp hstart
      exact .unary ht hop hx
    · next hstart =>
      rcases readGrouping_gives.mp h with ⟨o, s₁, c, ho, hc, rfl⟩ | ⟨o, s₁, s₂, c, ho, he, hc⟩
      · rw [ho.current_eq] at hstart
        exact .unit ⟨ho, start?_grouping.mp hstart⟩ hc
      · rw [ho.current_eq] at hstart
        exact .grouping ⟨ho, start?_grouping.mp hstart⟩ he hc
    · exact .block h
    · exact .branch h
    · exact .letIn h
    · exact .procedure h
  · intro h
    cases h with
    | primary ht he =>
      rw [ht.current_eq, start?_of_ofToken? he]
      exact readPrimary_gives.mpr ⟨_, ht, he⟩
    | unary ht hop hx =>
      rw [ht.current_eq, start?_unary.mpr ⟨_, hop⟩]
      exact readUnary_gives.mpr ⟨_, _, _, ht, hx, rfl⟩
    | unit ho hc =>
      rw [ho.kind_eq]
      exact readGrouping_gives.mpr (.inl ⟨_, _, _, ho.1, hc, rfl⟩)
    | grouping ho he hc =>
      rw [ho.kind_eq]
      exact readGrouping_gives.mpr (.inr ⟨_, _, _, _, ho.1, he, hc⟩)
    | block h =>
      rw [kind_of_readBlock h]
      exact h
    | branch h =>
      rw [kind_of_readBranch h]
      exact h
    | letIn h =>
      rw [kind_of_readLet h]
      exact h
    | procedure h =>
      rw [kind_of_readProcedure h]
      exact h

/-- How an expression can go on behind `left`. -/
inductive Followed (p : Power) (left : Expr) (s : TokenStream) : Expr → TokenStream → Prop
  | stop (hs : s.Stops p) : Followed p left s left s
  | binary {t : Token} {op : BinaryOp} {right e : Expr} {s₁ s₂ s' : TokenStream}
    (ht : s.Consumes [t] s₁) (hop : BinaryOp.ofKind? t.kind = some op)
    (hp : p.rank < op.power.rank) (hr : (read .standard op.power s₁).Gives right s₂)
    (hf : (readFollow .standard p
      (.binary left t right ⟨left.span.start, right.span.stop⟩) s₂).Gives e s') :
    Followed p left s e s'
  | call {o c : Token} {arguments : List Expr} {e : Expr} {s₁ s₂ s₃ s' : TokenStream}
    (ho : s.Takes .openParen o s₁) (hp : p.rank < Power.call.rank)
    (ha : (readArguments .standard s₁).Gives arguments s₂) (hc : s₂.Takes .closeParen c s₃)
    (hf : (readFollow .standard p (.call left arguments ⟨left.span.start, c.span.stop⟩) s₃).Gives
      e s') : Followed p left s e s'

theorem readFollow_gives {p : Power} {left : Expr} :
    (readFollow .standard p left s).Gives e s' ↔ Followed p left s e s' := by
  rw [readFollow]
  constructor
  · intro h
    split at h
    · next hn =>
      obtain ⟨rfl, rfl⟩ := gives_ok.mp h
      refine .stop fun q form hq => ?_
      rw [current, next?_eq_none hn] at hq
      cases hq
    · next t s₁ hlt hn =>
      have ht : s.Consumes [t] s₁ := .of_next? hn
      split at h
      · next hfollow =>
        obtain ⟨rfl, rfl⟩ := gives_ok.mp h
        refine .stop fun q form hq => ?_
        rw [ht.current_eq, hfollow] at hq
        cases hq
      · next q form hfollow =>
        split at h
        · next hle =>
          obtain ⟨rfl, rfl⟩ := gives_ok.mp h
          refine .stop fun q' form' hq => ?_
          rw [ht.current_eq, hfollow] at hq
          cases hq
          exact hle
        · next hle =>
          have hlt := Nat.lt_of_not_le hle
          cases form with
          | binary =>
            obtain ⟨op, hop, rfl⟩ := Grammar.follow?_binary.mp hfollow
            obtain ⟨right, s₂, hr, h⟩ := gives_andThen.mp h
            exact .binary ht hop hlt hr (gives_widen.mp h)
          | call =>
            obtain ⟨hk, rfl⟩ := Grammar.follow?_call.mp hfollow
            obtain ⟨arguments, s₂, ha, h⟩ := gives_andThen.mp h
            obtain ⟨c, s₃, hc, h⟩ := gives_andThen.mp h
            exact .call ⟨ht, hk⟩ hlt ha (gives_need.mp hc) (gives_widen.mp h)
  · intro h
    cases h with
    | stop hs =>
      split
      · exact gives_ok.mpr ⟨rfl, rfl⟩
      · next t s₁ hlt hn =>
        have ht : s.Consumes [t] s₁ := .of_next? hn
        split
        · exact gives_ok.mpr ⟨rfl, rfl⟩
        · next q form hfollow =>
          rw [← ht.current_eq] at hfollow
          rw [if_pos (hs q form hfollow)]
          exact gives_ok.mpr ⟨rfl, rfl⟩
    | binary ht hop hp hr hf =>
      obtain ⟨hlt, hn⟩ := ht.next?_eq
      simp only [hn, Grammar.follow?_binary.mpr ⟨_, hop, rfl⟩, if_neg (Nat.not_le_of_lt hp)]
      exact gives_andThen.mpr ⟨_, _, hr, gives_widen.mpr hf⟩
    | call ho hp ha hc hf =>
      obtain ⟨hlt, hn⟩ := ho.1.next?_eq
      simp only [hn, Grammar.follow?_call.mpr ⟨ho.2, rfl⟩, if_neg (Nat.not_le_of_lt hp)]
      exact gives_andThen.mpr ⟨_, _, ha,
        gives_andThen.mpr ⟨_, _, gives_need.mpr hc, gives_widen.mpr hf⟩⟩

theorem readArguments_gives : (readArguments .standard s).Gives es s' ↔
    (s.current.kind = .closeParen ∧ es = [] ∧ s' = s) ∨ ∃ e s₁,
      (read .standard .lowest s).Gives e s₁ ∧
        CommaList (fun s => (readArguments .standard s).Gives) e s₁ es s' := by
  rw [readArguments]
  by_cases hk : s.current.kind = .closeParen
  · rw [if_pos hk, gives_ok]
    constructor
    · rintro ⟨rfl, rfl⟩
      exact .inl ⟨hk, rfl, rfl⟩
    · rintro (⟨-, rfl, rfl⟩ | ⟨e, s₁, he, -⟩)
      · exact ⟨rfl, rfl⟩
      · have hstart := start?_of_read he
        rw [hk] at hstart
        exact absurd rfl hstart
  · rw [if_neg hk, gives_andThen]
    constructor
    · rintro ⟨e, s₁, he, h⟩
      exact .inr ⟨e, s₁, he, gives_commaList.mp h⟩
    · rintro (⟨h, -⟩ | ⟨e, s₁, he, h⟩)
      · exact absurd h hk
      · exact ⟨e, s₁, he, gives_commaList.mpr h⟩

/-- How a block can go on behind its first expression `e`. -/
inductive BodyTail (e : Expr) (s : TokenStream) : List Expr → TokenStream → Prop
  | last (hk : s.current.kind = .closeCurly) : BodyTail e s [e] s
  | unit {t : Token} {s' : TokenStream} (ht : s.Takes .semicolon t s')
    (hk : s'.current.kind = .closeCurly) : BodyTail e s [e, .unit t.span] s'
  | cons {t : Token} {e' : Expr} {es : List Expr} {s₁ s' : TokenStream}
    (ht : s.Takes .semicolon t s₁) (hes : (readBody .standard s₁).Gives (e' :: es) s') :
    BodyTail e s (e :: e' :: es) s'

theorem readBody_nil (hk : s.current.kind = .closeCurly) :
    (readBody .standard s).Gives es s' ↔ es = [] ∧ s' = s := by
  rw [readBody, if_pos hk, gives_ok, eq_comm, @eq_comm _ s]

/-- A block without expressions is closed at once. -/
theorem closeCurly_of_readBody (h : (readBody .standard s).Gives [] s') :
    s.current.kind = .closeCurly := by
  rw [readBody] at h
  split at h
  · assumption
  · obtain ⟨e, s₁, _, h⟩ := gives_andThen.mp h
    split at h <;> split at h
    · cases (gives_ok.mp h).1
    · obtain ⟨more, s₃, _, h⟩ := gives_andThen.mp h
      cases (gives_ok.mp h).1
    · cases (gives_ok.mp h).1
    · exact absurd h not_gives_unexpectedThere

theorem readBody_gives : (readBody .standard s).Gives es s' ↔
    (s.current.kind = .closeCurly ∧ es = [] ∧ s' = s) ∨ ∃ e s₁,
      (read .standard .lowest s).Gives e s₁ ∧ BodyTail e s₁ es s' := by
  by_cases hk : s.current.kind = .closeCurly
  · rw [readBody_nil hk]
    constructor
    · exact fun h => .inl ⟨hk, h⟩
    · rintro (⟨-, h⟩ | ⟨e, s₁, he, -⟩)
      · exact h
      · have hstart := start?_of_read he
        rw [hk] at hstart
        exact absurd rfl hstart
  · rw [readBody, if_neg hk, gives_andThen]
    constructor
    · rintro ⟨e, s₁, he, h⟩
      refine .inr ⟨e, s₁, he, ?_⟩
      split at h
      · next t s₂ hlt ht =>
        split at h
        · next hclose =>
          obtain ⟨rfl, rfl⟩ := gives_ok.mp h
          exact .unit (.of_take? ht) hclose
        · next hclose =>
          obtain ⟨more, s₃, hm, h⟩ := gives_andThen.mp h
          obtain ⟨rfl, rfl⟩ := gives_ok.mp h
          cases more with
          | nil => exact absurd (closeCurly_of_readBody hm) hclose
          | cons e' more => exact .cons (.of_take? ht) hm
      · split at h
        · next hclose =>
          obtain ⟨rfl, rfl⟩ := gives_ok.mp h
          exact .last hclose
        · exact absurd h not_gives_unexpectedThere
    · rintro (⟨h, -⟩ | ⟨e, s₁, he, h⟩)
      · exact absurd h hk
      · refine ⟨e, s₁, he, ?_⟩
        cases h with
        | last hclose =>
          have hne : s'.current.kind ≠ .semicolon := by rw [hclose]; decide
          simp only [take?_eq_none hne, hclose, if_true]
          exact gives_ok.mpr ⟨rfl, rfl⟩
        | unit ht hclose =>
          obtain ⟨hlt, htake⟩ := ht.take?_eq
          simp only [htake, hclose, if_true]
          exact gives_ok.mpr ⟨rfl, rfl⟩
        | @cons t e' more s₂ _ ht hm =>
          obtain ⟨hlt, htake⟩ := ht.take?_eq
          have hne : s₂.current.kind ≠ .closeCurly := by
            intro hclose
            cases ((readBody_nil hclose).mp hm).1
          simp only [htake, if_neg hne]
          exact gives_andThen.mpr ⟨_, _, hm, gives_ok.mpr ⟨rfl, rfl⟩⟩

theorem readBranch_gives : (readBranch .standard s).Gives e s' ↔ ∃ t s₁ c s₂ x s₃,
    s.Takes .wordIf t s₁ ∧ (read .standard .lowest s₁).Gives c s₂ ∧
      (readBlock .standard s₂).Gives x s₃ ∧
      ((s₃.current.kind ≠ .wordElse ∧ e = .branch c x none ⟨t.span.start, x.span.stop⟩ ∧ s' = s₃) ∨
        ∃ u s₄ y, s₃.Takes .wordElse u s₄ ∧
          ((readBranch .standard s₄).Gives y s' ∨ (readBlock .standard s₄).Gives y s') ∧
          e = .branch c x (some y) ⟨t.span.start, y.span.stop⟩) := by
  rw [readBranch]
  simp only [gives_andThen, gives_need]
  constructor
  · rintro ⟨t, s₁, ht, c, s₂, hc, x, s₃, hx, h⟩
    refine ⟨t, s₁, c, s₂, x, s₃, ht, hc, hx, ?_⟩
    rcases (gives_take? (by decide)).mp h with ⟨hne, h⟩ | ⟨u, s₄, hlt, hu, h⟩
    · obtain ⟨rfl, rfl⟩ := gives_ok.mp h
      exact .inl ⟨hne, rfl, rfl⟩
    · split at h
      · obtain ⟨y, s₅, hy, h⟩ := gives_andThen.mp h
        obtain ⟨rfl, rfl⟩ := gives_ok.mp h
        exact .inr ⟨u, s₄, y, hu, .inl hy, rfl⟩
      · obtain ⟨y, s₅, hy, h⟩ := gives_andThen.mp h
        obtain ⟨rfl, rfl⟩ := gives_ok.mp h
        exact .inr ⟨u, s₄, y, hu, .inr hy, rfl⟩
  · rintro ⟨t, s₁, c, s₂, x, s₃, ht, hc, hx, h⟩
    refine ⟨t, s₁, ht, c, s₂, hc, x, s₃, hx, ?_⟩
    rcases h with ⟨hne, rfl, rfl⟩ | ⟨u, s₄, y, hu, hy, rfl⟩
    · simp only [take?_eq_none hne]
      exact gives_ok.mpr ⟨rfl, rfl⟩
    · obtain ⟨hlt, htake⟩ := hu.take?_eq
      simp only [htake]
      rcases hy with hy | hy
      · rw [if_pos (kind_of_readBranch hy)]
        exact gives_andThen.mpr ⟨y, s', hy, gives_ok.mpr ⟨rfl, rfl⟩⟩
      · have hne : s₄.current.kind ≠ .wordIf := by rw [kind_of_readBlock hy]; decide
        rw [if_neg hne]
        exact gives_andThen.mpr ⟨y, s', hy, gives_ok.mpr ⟨rfl, rfl⟩⟩

theorem readDeclarations_gives {ds : List (Declaration Expr)} :
    (readDeclarations .standard s).Gives ds s' ↔ ∃ t s₁ type? s₂ a s₃ value s₄,
      s.Takes .identifier t s₁ ∧ (TypeExpr.readAfter? .standard .colon s₁).Gives type? s₂ ∧
      s₂.Takes .assign a s₃ ∧ (read .standard .lowest s₃).Gives value s₄ ∧
      CommaList (fun s => (readDeclarations .standard s).Gives)
        ⟨t.value, type?, value, ⟨t.span.start, value.span.stop⟩⟩ s₄ ds s' := by
  rw [readDeclarations]
  simp only [gives_andThen, gives_need]
  constructor
  · rintro ⟨t, s₁, ht, type?, s₂, htype, a, s₃, ha, value, s₄, hvalue, h⟩
    exact ⟨t, s₁, type?, s₂, a, s₃, value, s₄, ht, htype, ha, hvalue, gives_commaList.mp h⟩
  · rintro ⟨t, s₁, type?, s₂, a, s₃, value, s₄, ht, htype, ha, hvalue, h⟩
    exact ⟨t, s₁, ht, type?, s₂, htype, a, s₃, ha, value, s₄, hvalue, gives_commaList.mpr h⟩

end Expr

namespace Item

variable {i : Item} {is : List Item}

theorem read_gives : (read .standard s).Gives i s' ↔
    (readProcedure .standard s).Gives i s' ∨ (readConstant .standard s).Gives i s' ∨
      (readMutable .standard s).Gives i s' ∨ (readEntry .standard s).Gives i s' := by
  unfold read
  constructor
  · intro h
    split at h
    · exact absurd h not_gives_unexpectedThere
    · exact .inl h
    · exact .inr (.inl h)
    · exact .inr (.inr (.inl h))
    · exact .inr (.inr (.inr h))
  · rintro (h | h | h | h) <;> rw [kind_of_need h] <;> exact h

theorem readAll_gives {seen : Bool} : (readAll .standard seen s).Gives is s' ↔
    (s.current.kind = .endOfInput ∧ is = [] ∧ s' = s) ∨ ∃ i s₁ more,
      (read .standard s).Gives i s₁ ∧ (seen && i.isEntry) = false ∧
        (readAll .standard (seen || i.isEntry) s₁).Gives more s' ∧ is = i :: more := by
  rw [readAll]
  by_cases hk : s.current.kind = .endOfInput
  · rw [if_pos (by simp [atEnd, hk]), gives_ok]
    constructor
    · rintro ⟨rfl, rfl⟩
      exact .inl ⟨hk, rfl, rfl⟩
    · rintro (⟨-, rfl, rfl⟩ | ⟨i, s₁, more, hi, -⟩)
      · exact ⟨rfl, rfl⟩
      · rcases read_gives.mp hi with h | h | h | h <;>
          · have := kind_of_need h
            rw [hk] at this
            cases this
  · rw [if_neg (by simp [atEnd, hk]), gives_andThen]
    constructor
    · rintro ⟨i, s₁, hi, h⟩
      split at h
      · exact absurd h not_gives_fail
      · next hseen =>
        obtain ⟨more, s₂, hm, h⟩ := gives_andThen.mp h
        obtain ⟨rfl, rfl⟩ := gives_ok.mp h
        exact .inr ⟨i, s₁, more, hi, by simpa using hseen, hm, rfl⟩
    · rintro (⟨h, -⟩ | ⟨i, s₁, more, hi, hseen, hm, rfl⟩)
      · exact absurd h hk
      · refine ⟨i, s₁, hi, ?_⟩
        rw [if_neg (by simp [hseen])]
        exact gives_andThen.mpr ⟨more, s', hm, gives_ok.mpr ⟨rfl, rfl⟩⟩

end Item

end RootedC
