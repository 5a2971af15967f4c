import RootedC.Proofs.Reading.Soundness

/-!
What stands in the tokens is read. The readers follow every rule of the grammar, as long as the next
token is one that cannot belong to the phrase: no operator that is stronger than those in front of
it, no bracket behind a type, no `else` behind a conditional.
-/
namespace RootedC

open TokenStream Outcome

variable {s s' : TokenStream} {k : Kind} {ts us vs : List Token}

/-- Tokens that end an expression, whatever its stratum. -/
def Kind.Closes (k : Kind) : Prop := Grammar.standard.follow? k = none ∧ k ≠ .wordElse

instance (k : Kind) : Decidable k.Closes := inferInstanceAs (Decidable (_ ∧ _))

namespace Phrase

/-- The kinds of tokens that may come next. -/
def Ends (k : Kind) : Phrase → Prop
  | type _ => k ≠ .openBracket
  | types _ | parameters _ | arguments _ => k = .closeParen
  | ascription mark _ => k ≠ mark ∧ k ≠ .openBracket
  | parameter _ => k = .comma ∨ k = .closeParen
  | expr stratum _ => k ≠ .wordElse ∧
    ∀ q form, Grammar.standard.follow? k = some (q, form) → q.rank ≤ stratum.rank
  | body _ => k = .closeCurly
  | branch _ => k ≠ .wordElse
  | declaration _ => k = .comma ∨ k = .openCurly
  | declarations _ => k = .openCurly
  | items _ => k = .endOfInput
  | element _ | block _ | signature _ _ | binding _ _ _ _ | item _ => True

/-- The reader of a phrase gets from one stream to another. What can be continued, an expression or
a type with brackets, is read together with all that follows it. -/
def Reads (s s' : TokenStream) : Phrase → Prop
  | element a => ∀ b s₂, (TypeExpr.readFollow .standard .lowest a s').Gives b s₂ →
    (TypeExpr.read .standard .lowest s).Gives b s₂
  | type a => (TypeExpr.read .standard .lowest s).Gives a s'
  | types as => (TypeExpr.readList .standard s).Gives as s'
  | ascription mark a? => (TypeExpr.readAfter? .standard mark s).Gives a? s'
  | parameter p => ∃ t s₁ type?, s.Takes .identifier t s₁ ∧
    (TypeExpr.readAfter? .standard .colon s₁).Gives type? s' ∧
      p = ⟨t.value, type?, ⟨t.span.start, s'.lastEnd⟩⟩
  | parameters ps => (Parameter.readList .standard s).Gives ps s'
  | expr stratum e => ∀ p : Power, p.rank < Power.call.rank → p.stratum.rank ≤ stratum.rank →
    ∀ a s₂, (Expr.readFollow .standard p e s').Gives a s₂ → (Expr.read .standard p s).Gives a s₂
  | arguments es => (Expr.readArguments .standard s).Gives es s'
  | body es => (Expr.readBody .standard s).Gives es s'
  | block e => (Expr.readBlock .standard s).Gives e s'
  | branch e => (Expr.readBranch .standard s).Gives e s'
  | declaration d => ∃ t s₁ type? s₂ a s₃ value, s.Takes .identifier t s₁ ∧
    (TypeExpr.readAfter? .standard .colon s₁).Gives type? s₂ ∧ s₂.Takes .assign a s₃ ∧
      (Expr.read .standard .lowest s₃).Gives value s' ∧
      d = ⟨t.value, type?, value, ⟨t.span.start, value.span.stop⟩⟩
  | declarations ds => (Expr.readDeclarations .standard s).Gives ds s'
  | signature start l => (Expr.readSignature .standard start s).Gives l s'
  | binding name type? value stop =>
    (Item.readBinding .standard s).Gives (name, type?, value) s' ∧ s'.lastEnd = stop
  | item i => (Item.read .standard s).Gives i s'
  | items is => ∀ seen : Bool, is.countP Item.isEntry + seen.toNat ≤ 1 →
    (Item.readAll .standard seen s).Gives is s'

/-- The tokens are read as the phrase wherever they stand. -/
def Accepted (x : Phrase) (ts : List Token) : Prop :=
  ∀ s s', s.Consumes ts s' → x.Ends s'.current.kind → x.Reads s s'

namespace Accepted

section Types
variable {a : TypeExpr} {as : List TypeExpr} {t o c : Token}

theorem typeName (ht : t.kind = .identifier) :
    (element (.name t.value t.span.start)).Accepted [t] := by
  intro s s' hts _ b s₂ hb
  refine TypeExpr.read_gives.mpr ⟨_, s', .inl ?_, hb⟩
  exact gives_andThen.mpr ⟨t, s', gives_need.mpr ⟨hts, ht⟩, gives_ok.mpr ⟨rfl, rfl⟩⟩

theorem typeArray (ha : (element a).Accepted ts) (ho : o.kind = .openBracket)
    (hc : c.kind = .closeBracket) : (element (.array a a.position)).Accepted (ts ++ [o, c]) := by
  intro s s' hts _ b s₃ hb
  obtain ⟨s₁, hts, hrest⟩ := consumes_append.mp hts
  obtain ⟨s₂, ho', hc'⟩ := consumes_cons.mp hrest
  refine ha s s₁ hts trivial b s₃ (TypeExpr.readFollow_gives.mpr (.inr ?_))
  exact ⟨o, s₂, c, s', ⟨ho', ho⟩, ⟨hc', hc⟩, hb⟩

theorem typeElement (ha : (element a).Accepted ts) : (type a).Accepted ts :=
  fun s s' hts hk => ha s s' hts trivial a s' (TypeExpr.readFollow_gives.mpr (.inl ⟨hk, rfl, rfl⟩))

theorem typeProc {arrow : Token} {r : TypeExpr} (ht : t.kind = .wordProc) (ho : o.kind = .openParen)
    (has : (types as).Accepted ts) (hc : c.kind = .closeParen) (harrow : arrow.kind = .arrow)
    (hr : (type r).Accepted us) :
    (type (.proc as r t.span.start)).Accepted (t :: o :: (ts ++ c :: arrow :: us)) := by
  intro s s' hts hk
  obtain ⟨s₁, ht', hts⟩ := consumes_cons.mp hts
  obtain ⟨s₂, ho', hts⟩ := consumes_cons.mp hts
  obtain ⟨s₃, hts, hrest⟩ := consumes_append.mp hts
  obtain ⟨s₄, hc', hrest⟩ := consumes_cons.mp hrest
  obtain ⟨s₅, harrow', hus⟩ := consumes_cons.mp hrest
  have hlist := has s₂ s₃ hts (by rw [hc'.current_eq]; exact hc)
  refine TypeExpr.read_gives.mpr
    ⟨_, s', .inr ?_, TypeExpr.readFollow_gives.mpr (.inl ⟨hk, rfl, rfl⟩)⟩
  simp only [TypeExpr.readProc, gives_andThen, gives_need, gives_ok, exists_prop]
  exact ⟨t, s₁, ⟨ht', ht⟩, o, s₂, ⟨ho', ho⟩, as, s₃, hlist, c, s₄, ⟨hc', hc⟩, arrow, s₅,
    ⟨harrow', harrow⟩, r, s', hr s₅ s' hus hk, rfl, rfl⟩

theorem typesNil : (types []).Accepted [] := by
  intro s s' hts hk
  obtain rfl := consumes_nil.mp hts
  exact TypeExpr.readList_gives.mpr (.inl ⟨hk, rfl, rfl⟩)

theorem typesLast (ha : (type a).Accepted ts) : (types [a]).Accepted ts := by
  intro s s' hts hk
  have hread := ha s s' hts (by rw [hk]; nofun)
  exact TypeExpr.readList_gives.mpr (.inr ⟨a, s', hread, .last (by rw [hk]; decide)⟩)

theorem typesCons (ha : (type a).Accepted ts) (hc : c.kind = .comma)
    (has : (types as).Accepted us) : (types (a :: as)).Accepted (ts ++ c :: us) := by
  intro s s' hts hk
  obtain ⟨s₁, hts, hrest⟩ := consumes_append.mp hts
  obtain ⟨s₂, hc', hus⟩ := consumes_cons.mp hrest
  have hread := ha s s₁ hts (by rw [hc'.current_eq, hc]; nofun)
  exact TypeExpr.readList_gives.mpr
    (.inr ⟨a, s₁, hread, .cons ⟨hc', hc⟩ (has s₂ s' hus hk)⟩)

theorem ascriptionNone (hk : k = .colon ∨ k = .arrow) : (ascription k none).Accepted [] := by
  intro s s' hts hend
  obtain rfl := consumes_nil.mp hts
  have hne : k ≠ .endOfInput := by rcases hk with rfl | rfl <;> decide
  exact (TypeExpr.readAfter?_gives hne).mpr (.inl ⟨hend.1, rfl, rfl⟩)

theorem ascriptionSome (hk : k = .colon ∨ k = .arrow) (ht : t.kind = k)
    (ha : (type a).Accepted ts) : (ascription k (some a)).Accepted (t :: ts) := by
  intro s s' hts hend
  obtain ⟨s₁, ht', hts⟩ := consumes_cons.mp hts
  have hne : k ≠ .endOfInput := by rcases hk with rfl | rfl <;> decide
  exact (TypeExpr.readAfter?_gives hne).mpr
    (.inr ⟨t, s₁, a, ⟨ht', ht⟩, ha s₁ s' hts hend.2, rfl⟩)

end Types

section Parameters
variable {p : Parameter} {ps : List Parameter} {t c : Token}

theorem parameter {type? : Option TypeExpr} (ht : t.kind = .identifier)
    (ha : (ascription .colon type?).Accepted ts) :
    (parameter ⟨t.value, type?, ⟨t.span.start, lastStop t ts⟩⟩).Accepted (t :: ts) := by
  intro s s' hts hk
  have hend : (ascription .colon type?).Ends s'.current.kind := by
    rcases hk with hk | hk <;> rw [hk] <;> exact ⟨nofun, nofun⟩
  rw [← hts.lastEnd_eq]
  obtain ⟨s₁, ht', hts⟩ := consumes_cons.mp hts
  exact ⟨t, s₁, type?, ⟨ht', ht⟩, ha s₁ s' hts hend, rfl⟩

theorem parametersNil : (parameters []).Accepted [] := by
  intro s s' hts hk
  obtain rfl := consumes_nil.mp hts
  exact Parameter.readList_gives.mpr (.inl ⟨hk, rfl, rfl⟩)

theorem parametersLast (hp : (Phrase.parameter p).Accepted ts) : (parameters [p]).Accepted ts := by
  intro s s' hts hk
  obtain ⟨t, s₁, type?, ht, htype, rfl⟩ := hp s s' hts (.inr hk)
  exact Parameter.readList_gives.mpr
    (.inr ⟨t, s₁, type?, s', ht, htype, .last (by rw [hk]; decide)⟩)

theorem parametersCons (hp : (Phrase.parameter p).Accepted ts) (hc : c.kind = .comma)
    (hps : (parameters ps).Accepted us) : (parameters (p :: ps)).Accepted (ts ++ c :: us) := by
  intro s s' hts hk
  obtain ⟨s₂, hts, hrest⟩ := consumes_append.mp hts
  obtain ⟨s₃, hc', hus⟩ := consumes_cons.mp hrest
  obtain ⟨t, s₁, type?, ht, htype, rfl⟩ := hp s s₂ hts (.inl (by rw [hc'.current_eq, hc]))
  exact Parameter.readList_gives.mpr
    (.inr ⟨t, s₁, type?, s₂, ht, htype, .cons ⟨hc', hc⟩ (hps s₃ s' hus hk)⟩)

end Parameters

section Strata
variable {e x : Expr} {es : List Expr} {t o c : Token}

/-- An expression up to a token that cannot continue it. -/
theorem read_lowest (he : (expr .disjunction e).Accepted ts) (hts : s.Consumes ts s')
    (hk : s'.current.kind.Closes) : (Expr.read .standard .lowest s).Gives e s' := by
  have hnone : ∀ q form, Grammar.standard.follow? s'.current.kind ≠ some (q, form) := by
    intro q form h
    rw [hk.1] at h
    cases h
  have hend : (expr .disjunction e).Ends s'.current.kind :=
    ⟨hk.2, fun q form h => absurd h (hnone q form)⟩
  refine he s s' hts hend .lowest (by decide) (by decide) e s' ?_
  exact Expr.readFollow_gives.mpr (.stop fun q form h => absurd h (hnone q form))

/-- What starts an expression can be followed by anything. -/
theorem of_started (h : ∀ s s', s.Consumes ts s' → s'.current.kind ≠ .wordElse →
    Expr.Started s e s') : (expr .call e).Accepted ts := by
  intro s s' hts hk p hp hr a s₂ hf
  rw [Expr.read, gives_andThen]
  exact ⟨e, s', Expr.readStart_gives.mpr (h s s' hts hk.1), gives_widen.mpr hf⟩

theorem of_ofToken? (he : Expr.ofToken? t = some e) : (expr .call e).Accepted [t] :=
  of_started fun _ _ hts _ => .primary hts he

theorem unit (ho : o.kind = .openParen) (hc : c.kind = .closeParen) :
    (expr .call (.unit ⟨o.span.start, c.span.stop⟩)).Accepted [o, c] := by
  refine of_started fun s s' hts _ => ?_
  obtain ⟨s₁, ho', hc'⟩ := consumes_cons.mp hts
  exact .unit ⟨ho', ho⟩ ⟨hc', hc⟩

theorem grouping (ho : o.kind = .openParen) (he : (expr .disjunction e).Accepted ts)
    (hc : c.kind = .closeParen) : (expr .call e).Accepted (o :: (ts ++ [c])) := by
  refine of_started fun s s' hts _ => ?_
  obtain ⟨s₁, ho', hts⟩ := consumes_cons.mp hts
  obtain ⟨s₂, hts, hc'⟩ := consumes_append.mp hts
  exact .grouping ⟨ho', ho⟩ (he.read_lowest hts (by rw [hc'.current_eq, hc]; decide)) ⟨hc', hc⟩

theorem ofBlock (he : (block e).Accepted ts) : (expr .call e).Accepted ts :=
  of_started fun s s' hts _ => .block (he s s' hts trivial)

theorem ofBranch (he : (branch e).Accepted ts) : (expr .call e).Accepted ts :=
  of_started fun s s' hts hk => .branch (he s s' hts hk)

theorem letIn {ds : List (Declaration Expr)} {b : Expr} (ht : t.kind = .wordLet)
    (hds : (declarations ds).Accepted ts) (hb : (block b).Accepted us) :
    (expr .call (.letIn ds b ⟨t.span.start, b.span.stop⟩)).Accepted (t :: (ts ++ us)) := by
  refine of_started fun s s' hts _ => ?_
  obtain ⟨s₁, ht', hts⟩ := consumes_cons.mp hts
  obtain ⟨s₂, hts, hus⟩ := consumes_append.mp hts
  have hblock := hb s₂ s' hus trivial
  have hlist := hds s₁ s₂ hts (Expr.kind_of_readBlock hblock)
  refine .letIn ?_
  simp only [Expr.readLet, gives_andThen, gives_need, gives_ok, exists_prop]
  exact ⟨t, s₁, ⟨ht', ht⟩, ds, s₂, hlist, b, s', hblock, rfl, rfl⟩

theorem procedure {l : Procedure Expr} (ht : t.kind = .wordProc)
    (hl : (signature t.span.start l).Accepted ts) :
    (expr .call (.procedure l)).Accepted (t :: ts) := by
  refine of_started fun s s' hts _ => ?_
  obtain ⟨s₁, ht', hts⟩ := consumes_cons.mp hts
  refine .procedure ?_
  simp only [Expr.readProcedure, gives_andThen, gives_need, gives_ok, exists_prop]
  exact ⟨t, s₁, ⟨ht', ht⟩, l, s', hl s₁ s' hts trivial, rfl, rfl⟩

theorem call {f : Expr} (hf : (expr .call f).Accepted ts) (ho : o.kind = .openParen)
    (hes : (arguments es).Accepted us) (hc : c.kind = .closeParen) :
    (expr .call (.call f es ⟨f.span.start, c.span.stop⟩)).Accepted (ts ++ o :: (us ++ [c])) := by
  intro s s' hts hk p hp hr a s₄ hfollow
  obtain ⟨s₁, hts, hrest⟩ := consumes_append.mp hts
  obtain ⟨s₂, ho', hrest⟩ := consumes_cons.mp hrest
  obtain ⟨s₃, hus, hc'⟩ := consumes_append.mp hrest
  have hlist := hes s₂ s₃ hus (by rw [hc'.current_eq, hc]; rfl)
  have hend : (expr .call f).Ends s₁.current.kind := by
    rw [ho'.current_eq, ho]
    exact ⟨by decide, fun q _ _ => q.rank_le⟩
  refine hf s s₁ hts hend p hp hr a s₄ (Expr.readFollow_gives.mpr ?_)
  exact .call ⟨ho', ho⟩ hp hlist ⟨hc', hc⟩ hfollow

theorem unary {op : UnaryOp} (ht : UnaryOp.ofKind? t.kind = some op)
    (hx : (expr .unary x).Accepted ts) :
    (expr .unary (.unary t x ⟨t.span.start, x.span.stop⟩)).Accepted (t :: ts) := by
  intro s s' hts hk p hp hr a s₂ hf
  obtain ⟨s₁, ht', hts⟩ := consumes_cons.mp hts
  have hread : (Expr.read .standard .unary s₁).Gives x s' :=
    hx s₁ s' hts hk .unary (by decide) (by decide) x s' (Expr.readFollow_gives.mpr (.stop hk.2))
  rw [Expr.read, gives_andThen]
  exact ⟨_, s', Expr.readStart_gives.mpr (.unary ht' ht hread), gives_widen.mpr hf⟩

/-- The left operand has been read when the operator comes, and the right operand ends before the
next operator that is not stronger. -/
theorem binary {op : BinaryOp} {l r : Expr} (hl : (expr op.power l).Accepted ts)
    (ht : BinaryOp.ofKind? t.kind = some op) (hr : (expr op.power.above r).Accepted us) :
    (expr op.power (.binary l t r ⟨l.span.start, r.span.stop⟩)).Accepted (ts ++ t :: us) := by
  intro s s' hts hk p hp hstratum a s₃ hf
  obtain ⟨s₁, hts, hrest⟩ := consumes_append.mp hts
  obtain ⟨s₂, ht', hus⟩ := consumes_cons.mp hrest
  have hfollow := Grammar.follow?_binary.mpr ⟨op, ht, rfl⟩
  have hrank := op.rank_power
  have habove := op.power.rank_above
  have hpstratum := p.rank_stratum
  have hend : (expr op.power l).Ends s₁.current.kind := by
    rw [ht'.current_eq]
    refine ⟨fun h => ?_, fun q form hq => ?_⟩
    · rw [h] at ht
      cases ht
    · rw [hfollow] at hq
      cases hq
      exact Nat.le_refl _
  have hend' : (expr op.power.above r).Ends s'.current.kind :=
    ⟨hk.1, fun q form hq => Nat.le_trans (hk.2 q form hq) (by omega)⟩
  have hright : (Expr.read .standard op.power s₂).Gives r s' :=
    hr s₂ s' hus hend' op.power (by change _ < 7; omega)
      (Nat.le_of_eq (congrArg Power.rank op.stratum_power)) r s'
      (Expr.readFollow_gives.mpr (.stop hk.2))
  refine hl s s₁ hts hend p hp hstratum a s₃ (Expr.readFollow_gives.mpr ?_)
  exact .binary ht' ht (by omega) hright hf

theorem weaker {p : Power} (he : (expr p.above e).Accepted ts) : (expr p e).Accepted ts := by
  intro s s' hts hk q hq hstratum
  have habove := p.rank_above
  have hle := p.rank_le
  refine he s s' hts ⟨hk.1, fun r form hr => ?_⟩ q hq (by omega)
  exact Nat.le_trans (hk.2 r form hr) (by omega)

end Strata

section Lists
variable {e e' : Expr} {es : List Expr} {t o c : Token}

theorem argumentsNil : (arguments []).Accepted [] := by
  intro s s' hts hk
  obtain rfl := consumes_nil.mp hts
  exact Expr.readArguments_gives.mpr (.inl ⟨hk, rfl, rfl⟩)

theorem argumentsLast (he : (expr .disjunction e).Accepted ts) : (arguments [e]).Accepted ts := by
  intro s s' hts hk
  have hread := he.read_lowest hts (by rw [hk]; decide)
  exact Expr.readArguments_gives.mpr (.inr ⟨e, s', hread, .last (by rw [hk]; decide)⟩)

theorem argumentsCons (he : (expr .disjunction e).Accepted ts) (hc : c.kind = .comma)
    (hes : (arguments es).Accepted us) : (arguments (e :: es)).Accepted (ts ++ c :: us) := by
  intro s s' hts hk
  obtain ⟨s₁, hts, hrest⟩ := consumes_append.mp hts
  obtain ⟨s₂, hc', hus⟩ := consumes_cons.mp hrest
  have hread := he.read_lowest hts (by rw [hc'.current_eq, hc]; decide)
  exact Expr.readArguments_gives.mpr (.inr ⟨e, s₁, hread, .cons ⟨hc', hc⟩ (hes s₂ s' hus hk)⟩)

theorem bodyNil : (body []).Accepted [] := by
  intro s s' hts hk
  obtain rfl := consumes_nil.mp hts
  exact Expr.readBody_gives.mpr (.inl ⟨hk, rfl, rfl⟩)

theorem bodyLast (he : (expr .disjunction e).Accepted ts) : (body [e]).Accepted ts := by
  intro s s' hts hk
  have hread := he.read_lowest hts (by rw [hk]; decide)
  exact Expr.readBody_gives.mpr (.inr ⟨e, s', hread, .last hk⟩)

theorem bodyUnit (he : (expr .disjunction e).Accepted ts) (ht : t.kind = .semicolon) :
    (body [e, .unit t.span]).Accepted (ts ++ [t]) := by
  intro s s' hts hk
  obtain ⟨s₁, hts, ht'⟩ := consumes_append.mp hts
  have hread := he.read_lowest hts (by rw [ht'.current_eq, ht]; decide)
  exact Expr.readBody_gives.mpr (.inr ⟨e, s₁, hread, .unit ⟨ht', ht⟩ hk⟩)

theorem bodyCons (he : (expr .disjunction e).Accepted ts) (ht : t.kind = .semicolon)
    (hes : (body (e' :: es)).Accepted us) : (body (e :: e' :: es)).Accepted (ts ++ t :: us) := by
  intro s s' hts hk
  obtain ⟨s₁, hts, hrest⟩ := consumes_append.mp hts
  obtain ⟨s₂, ht', hus⟩ := consumes_cons.mp hrest
  have hread := he.read_lowest hts (by rw [ht'.current_eq, ht]; decide)
  exact Expr.readBody_gives.mpr (.inr ⟨e, s₁, hread, .cons ⟨ht', ht⟩ (hes s₂ s' hus hk)⟩)

theorem block (ho : o.kind = .openCurly) (hes : (body es).Accepted ts)
    (hc : c.kind = .closeCurly) :
    (block (.block es ⟨o.span.start, c.span.stop⟩)).Accepted (o :: (ts ++ [c])) := by
  intro s s' hts _
  obtain ⟨s₁, ho', hts⟩ := consumes_cons.mp hts
  obtain ⟨s₂, hts, hc'⟩ := consumes_append.mp hts
  have hbody := hes s₁ s₂ hts (by rw [hc'.current_eq, hc]; rfl)
  simp only [Reads, Expr.readBlock, gives_andThen, gives_need, gives_ok, exists_prop]
  exact ⟨o, s₁, ⟨ho', ho⟩, es, s₂, hbody, c, s', ⟨hc', hc⟩, rfl, rfl⟩

end Lists

section Branches
variable {t u : Token} {c x y : Expr}

theorem branch (ht : t.kind = .wordIf) (hc : (expr .disjunction c).Accepted ts)
    (hx : (Phrase.block x).Accepted us) :
    (branch (.branch c x none ⟨t.span.start, x.span.stop⟩)).Accepted (t :: (ts ++ us)) := by
  intro s s' hts hk
  obtain ⟨s₁, ht', hts⟩ := consumes_cons.mp hts
  obtain ⟨s₂, hts, hus⟩ := consumes_append.mp hts
  have hblock := hx s₂ s' hus trivial
  have hread := hc.read_lowest hts (by rw [Expr.kind_of_readBlock hblock]; decide)
  exact Expr.readBranch_gives.mpr
    ⟨t, s₁, c, s₂, x, s', ⟨ht', ht⟩, hread, hblock, .inl ⟨hk, rfl, rfl⟩⟩

/-- Both kinds of an else arm. -/
theorem branch_else (ht : t.kind = .wordIf) (hc : (expr .disjunction c).Accepted ts)
    (hx : (Phrase.block x).Accepted us) (hu : u.kind = .wordElse)
    (hy : ∀ s s', s.Consumes vs s' → s'.current.kind ≠ .wordElse →
      (Expr.readBranch .standard s).Gives y s' ∨ (Expr.readBlock .standard s).Gives y s') :
    (Phrase.branch (.branch c x (some y) ⟨t.span.start, y.span.stop⟩)).Accepted
      (t :: (ts ++ (us ++ u :: vs))) := by
  intro s s' hts hk
  obtain ⟨s₁, ht', hts⟩ := consumes_cons.mp hts
  obtain ⟨s₂, hts, hrest⟩ := consumes_append.mp hts
  obtain ⟨s₃, hus, hrest⟩ := consumes_append.mp hrest
  obtain ⟨s₄, hu', hvs⟩ := consumes_cons.mp hrest
  have hblock := hx s₂ s₃ hus trivial
  have hread := hc.read_lowest hts (by rw [Expr.kind_of_readBlock hblock]; decide)
  exact Expr.readBranch_gives.mpr ⟨t, s₁, c, s₂, x, s₃, ⟨ht', ht⟩, hread, hblock,
    .inr ⟨u, s₄, y, ⟨hu', hu⟩, hy s₄ s' hvs hk, rfl⟩⟩

end Branches

section Declarations
variable {t a c : Token} {type? : Option TypeExpr} {e : Expr} {d : Declaration Expr}
  {ds : List (Declaration Expr)}

theorem declaration (ht : t.kind = .identifier) (htype : (ascription .colon type?).Accepted ts)
    (ha : a.kind = .assign) (he : (expr .disjunction e).Accepted us) :
    (declaration ⟨t.value, type?, e, ⟨t.span.start, e.span.stop⟩⟩).Accepted
      (t :: (ts ++ a :: us)) := by
  intro s s' hts hk
  obtain ⟨s₁, ht', hts⟩ := consumes_cons.mp hts
  obtain ⟨s₂, hts, hrest⟩ := consumes_append.mp hts
  obtain ⟨s₃, ha', hus⟩ := consumes_cons.mp hrest
  have hascription := htype s₁ s₂ hts (by rw [ha'.current_eq, ha]; exact ⟨nofun, nofun⟩)
  have hread := he.read_lowest hus (by rcases hk with hk | hk <;> rw [hk] <;> decide)
  exact ⟨t, s₁, type?, s₂, a, s₃, e, ⟨ht', ht⟩, hascription, ⟨ha', ha⟩, hread, rfl⟩

theorem declarationsLast (hd : (Phrase.declaration d).Accepted ts) :
    (declarations [d]).Accepted ts := by
  intro s s' hts hk
  obtain ⟨t, s₁, type?, s₂, a, s₃, e, ht, htype, ha, he, rfl⟩ := hd s s' hts (.inr hk)
  exact Expr.readDeclarations_gives.mpr ⟨t, s₁, type?, s₂, a, s₃, e, s', ht, htype, ha, he,
    .last (by rw [hk]; decide)⟩

theorem declarationsCons (hd : (Phrase.declaration d).Accepted ts) (hc : c.kind = .comma)
    (hds : (declarations ds).Accepted us) : (declarations (d :: ds)).Accepted (ts ++ c :: us) := by
  intro s s' hts hk
  obtain ⟨s₄, hts, hrest⟩ := consumes_append.mp hts
  obtain ⟨s₅, hc', hus⟩ := consumes_cons.mp hrest
  obtain ⟨t, s₁, type?, s₂, a, s₃, e, ht, htype, ha, he, rfl⟩ :=
    hd s s₄ hts (.inl (by rw [hc'.current_eq, hc]))
  exact Expr.readDeclarations_gives.mpr ⟨t, s₁, type?, s₂, a, s₃, e, s₄, ht, htype, ha, he,
    .cons ⟨hc', hc⟩ (hds s₅ s' hus hk)⟩

end Declarations

section Items
variable {t n o c a semi : Token} {type? : Option TypeExpr} {e : Expr} {name : String}
  {stop : Position} {l : Procedure Expr}

theorem signature {ps : List Parameter} {b : Expr} {start : Position} (ho : o.kind = .openParen)
    (hps : (parameters ps).Accepted ts) (hc : c.kind = .closeParen)
    (hresult : (ascription .arrow type?).Accepted us) (hb : (Phrase.block b).Accepted vs) :
    (signature start ⟨ps, type?, b, ⟨start, b.span.stop⟩⟩).Accepted
      (o :: (ts ++ c :: (us ++ vs))) := by
  intro s s' hts _
  obtain ⟨s₁, ho', hts⟩ := consumes_cons.mp hts
  obtain ⟨s₂, hts, hrest⟩ := consumes_append.mp hts
  obtain ⟨s₃, hc', hrest⟩ := consumes_cons.mp hrest
  obtain ⟨s₄, hus, hvs⟩ := consumes_append.mp hrest
  have hlist := hps s₁ s₂ hts (by rw [hc'.current_eq, hc]; rfl)
  have hblock := hb s₄ s' hvs trivial
  have hascription := hresult s₃ s₄ hus
    (by rw [Expr.kind_of_readBlock hblock]; exact ⟨nofun, nofun⟩)
  simp only [Reads, Expr.readSignature, Parameter.readAll, gives_andThen, gives_need, gives_ok,
    exists_prop]
  exact ⟨ps, s₃, ⟨o, s₁, ⟨ho', ho⟩, ps, s₂, hlist, c, s₃, ⟨hc', hc⟩, rfl, rfl⟩, type?, s₄,
    hascription, b, s', hblock, rfl, rfl⟩

theorem binding (ht : t.kind = .identifier) (htype : (ascription .colon type?).Accepted ts)
    (ha : a.kind = .assign) (he : (expr .disjunction e).Accepted us)
    (hs : semi.kind = .semicolon) :
    (binding t.value type? e semi.span.stop).Accepted (t :: (ts ++ a :: (us ++ [semi]))) := by
  intro s s' hts _
  obtain ⟨s₁, ht', hts⟩ := consumes_cons.mp hts
  obtain ⟨s₂, hts, hrest⟩ := consumes_append.mp hts
  obtain ⟨s₃, ha', hrest⟩ := consumes_cons.mp hrest
  obtain ⟨s₄, hus, hs'⟩ := consumes_append.mp hrest
  have hascription := htype s₁ s₂ hts (by rw [ha'.current_eq, ha]; exact ⟨nofun, nofun⟩)
  have hread := he.read_lowest hus (by rw [hs'.current_eq, hs]; decide)
  refine ⟨?_, hs'.lastEnd_eq⟩
  simp only [Item.readBinding, gives_andThen, gives_needOr, gives_need, gives_ok, exists_prop]
  exact ⟨t, s₁, ⟨ht', ht⟩, type?, s₂, hascription, a, s₃, ⟨ha', ha⟩, e, s₄, hread, semi, s',
    ⟨hs', hs⟩, rfl, rfl⟩

theorem itemProcedure (ht : t.kind = .wordProc) (hn : n.kind = .identifier)
    (hl : (Phrase.signature t.span.start l).Accepted ts) :
    (item (.procedure n.value l ⟨t.span.start, l.span.stop⟩)).Accepted (t :: n :: ts) := by
  intro s s' hts _
  obtain ⟨s₁, ht', hts⟩ := consumes_cons.mp hts
  obtain ⟨s₂, hn', hts⟩ := consumes_cons.mp hts
  refine Item.read_gives.mpr (.inl ?_)
  simp only [Item.readProcedure, gives_andThen, gives_needOr, gives_need, gives_ok, exists_prop]
  exact ⟨t, s₁, ⟨ht', ht⟩, n, s₂, ⟨hn', hn⟩, l, s', hl s₂ s' hts trivial, rfl, rfl⟩

theorem itemConstant (ht : t.kind = .wordConst)
    (hb : (Phrase.binding name type? e stop).Accepted ts) :
    (item (.constant name type? e ⟨t.span.start, stop⟩)).Accepted (t :: ts) := by
  intro s s' hts _
  obtain ⟨s₁, ht', hts⟩ := consumes_cons.mp hts
  obtain ⟨hbinding, rfl⟩ := hb s₁ s' hts trivial
  refine Item.read_gives.mpr (.inr (.inl ?_))
  simp only [Item.readConstant, gives_andThen, gives_need, gives_ok, exists_prop]
  exact ⟨t, s₁, ⟨ht', ht⟩, (name, type?, e), s', hbinding, rfl, rfl⟩

theorem itemMutable (ht : t.kind = .wordVar)
    (hb : (Phrase.binding name type? e stop).Accepted ts) :
    (item (.mutable name type? e ⟨t.span.start, stop⟩)).Accepted (t :: ts) := by
  intro s s' hts _
  obtain ⟨s₁, ht', hts⟩ := consumes_cons.mp hts
  obtain ⟨hbinding, rfl⟩ := hb s₁ s' hts trivial
  refine Item.read_gives.mpr (.inr (.inr (.inl ?_)))
  simp only [Item.readMutable, gives_andThen, gives_need, gives_ok, exists_prop]
  exact ⟨t, s₁, ⟨ht', ht⟩, (name, type?, e), s', hbinding, rfl, rfl⟩

theorem itemEntry (ht : t.kind = .wordEntry) (he : (Phrase.block e).Accepted ts) :
    (item (.entry e ⟨t.span.start, e.span.stop⟩)).Accepted (t :: ts) := by
  intro s s' hts _
  obtain ⟨s₁, ht', hts⟩ := consumes_cons.mp hts
  refine Item.read_gives.mpr (.inr (.inr (.inr ?_)))
  simp only [Item.readEntry, gives_andThen, gives_need, gives_ok, exists_prop]
  exact ⟨t, s₁, ⟨ht', ht⟩, e, s', he s₁ s' hts trivial, rfl, rfl⟩

theorem itemsNil : (items []).Accepted [] := by
  intro s s' hts hk seen _
  obtain rfl := consumes_nil.mp hts
  exact Item.readAll_gives.mpr (.inl ⟨hk, rfl, rfl⟩)

theorem itemsCons {i : Item} {is : List Item} (hi : (Phrase.item i).Accepted ts)
    (his : (items is).Accepted us) : (items (i :: is)).Accepted (ts ++ us) := by
  intro s s' hts hk seen hcount
  obtain ⟨s₁, hts, hus⟩ := consumes_append.mp hts
  rw [List.countP_cons] at hcount
  have hseen : (seen && i.isEntry) = false := by
    cases seen <;> cases he : i.isEntry <;> simp_all
  have hmore : is.countP Item.isEntry + (seen || i.isEntry).toNat ≤ 1 := by
    cases seen <;> cases he : i.isEntry <;> simp_all
  exact Item.readAll_gives.mpr (.inr ⟨i, s₁, is, hi s s₁ hts trivial, hseen,
    his s₁ s' hus hk _ hmore, rfl⟩)

end Items

end Accepted

/-- The readers follow the grammar. -/
theorem accepted_of_spells {x : Phrase} (h : Spells ts x) : x.Accepted ts := by
  induction h with
  | typeName ht => exact .typeName ht
  | typeArray _ ho hc iha => exact iha.typeArray ho hc
  | typeElement _ iha => exact iha.typeElement
  | typeProc ht ho _ hc harrow _ ihas ihr => exact .typeProc ht ho ihas hc harrow ihr
  | typesNil => exact .typesNil
  | typesLast _ iha => exact iha.typesLast
  | typesCons _ hc _ iha ihas => exact iha.typesCons hc ihas
  | ascriptionNone hk => exact .ascriptionNone hk
  | ascriptionSome hk ht _ iha => exact .ascriptionSome hk ht iha
  | parameter ht _ iha => exact .parameter ht iha
  | parametersNil => exact .parametersNil
  | parametersLast _ ihp => exact ihp.parametersLast
  | parametersCons _ hc _ ihp ihps => exact ihp.parametersCons hc ihps
  | number ht hv => exact .of_ofToken? (by simp [Expr.ofToken?, ht, hv])
  | name ht => exact .of_ofToken? (by simp [Expr.ofToken?, ht])
  | text ht => exact .of_ofToken? (by simp [Expr.ofToken?, ht])
  | isTrue ht => exact .of_ofToken? (by simp [Expr.ofToken?, ht])
  | isFalse ht => exact .of_ofToken? (by simp [Expr.ofToken?, ht])
  | unit ho hc => exact .unit ho hc
  | grouping ho _ hc ihe => exact .grouping ho ihe hc
  | ofBlock _ ihe => exact ihe.ofBlock
  | ofBranch _ ihe => exact ihe.ofBranch
  | letIn ht _ _ ihds ihb => exact .letIn ht ihds ihb
  | procedure ht _ ihl => exact .procedure ht ihl
  | call _ ho _ hc ihf ihes => exact ihf.call ho ihes hc
  | unary ht _ ihx => exact .unary ht ihx
  | binary _ ht _ ihl ihr => exact ihl.binary ht ihr
  | weaker _ ihe => exact ihe.weaker
  | argumentsNil => exact .argumentsNil
  | argumentsLast _ ihe => exact ihe.argumentsLast
  | argumentsCons _ hc _ ihe ihes => exact ihe.argumentsCons hc ihes
  | bodyNil => exact .bodyNil
  | bodyLast _ ihe => exact ihe.bodyLast
  | bodyUnit _ ht ihe => exact ihe.bodyUnit ht
  | bodyCons _ ht _ ihe ihes => exact ihe.bodyCons ht ihes
  | block ho _ hc ihes => exact .block ho ihes hc
  | branch ht _ _ ihc ihx => exact .branch ht ihc ihx
  | branchElse ht _ _ hu _ ihc ihx ihy =>
    exact .branch_else ht ihc ihx hu fun s s' hts _ => .inr (ihy s s' hts trivial)
  | branchElseIf ht _ _ hu _ ihc ihx ihy =>
    exact .branch_else ht ihc ihx hu fun s s' hts hk => .inl (ihy s s' hts hk)
  | declaration ht _ ha _ ihtype ihe => exact .declaration ht ihtype ha ihe
  | declarationsLast _ ihd => exact ihd.declarationsLast
  | declarationsCons _ hc _ ihd ihds => exact ihd.declarationsCons hc ihds
  | signature ho _ hc _ _ ihps ihresult ihb => exact .signature ho ihps hc ihresult ihb
  | binding ht _ ha _ hs ihtype ihe => exact .binding ht ihtype ha ihe hs
  | itemProcedure ht hn _ ihl => exact .itemProcedure ht hn ihl
  | itemConstant ht _ ihb => exact .itemConstant ht ihb
  | itemMutable ht _ ihb => exact .itemMutable ht ihb
  | itemEntry ht _ ihe => exact .itemEntry ht ihe
  | itemsNil => exact .itemsNil
  | itemsCons _ _ ihi ihis => exact ihi.itemsCons ihis

end Phrase

end RootedC
