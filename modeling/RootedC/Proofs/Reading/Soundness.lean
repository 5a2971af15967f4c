import RootedC.Proofs.Reading.Readers

/-!
What is read stands in the tokens. Every reader takes tokens off the stream that spell what it
gives, and leaves the rest of the stream as it was.
-/
namespace RootedC

open TokenStream Outcome

variable {s s' s₁ s₂ : TokenStream} {k : Kind}

/-- The tokens between two streams spell a phrase. -/
def Phrase.Spans (x : Phrase) (s s' : TokenStream) : Prop := ∃ ts, s.Consumes ts s' ∧ Spells ts x

namespace TypeExpr

theorem readName_spans {a : TypeExpr} (h : (readName s).Gives a s') :
    (Phrase.element a).Spans s s' := by
  simp only [readName, gives_andThen, gives_need, gives_ok, exists_prop] at h
  obtain ⟨t, s₁, ht, rfl, rfl⟩ := h
  exact ⟨[t], ht.1, .typeName ht.2⟩

mutual

theorem read_spans {s s' : TokenStream} {a : TypeExpr}
    (h : (read .standard .lowest s).Gives a s') :
    (Phrase.type a).Spans s s' ∧ s'.current.kind ≠ .openBracket := by
  obtain ⟨b, s₁, hb | hb, hf⟩ := read_gives.mp h
  · have hlt := hb.lt
    exact readFollow_spans hf (readName_spans hb)
  · obtain ⟨hspans, hne⟩ := readProc_spans hb
    rcases readFollow_gives.mp hf with ⟨-, rfl, rfl⟩ | ⟨o, s₂, c, s₃, ho, -⟩
    · exact ⟨hspans, hne⟩
    · exact absurd ho.kind_eq hne
termination_by (s.size, 1)

theorem readFollow_spans {s s' s₀ : TokenStream} {a b : TypeExpr}
    (h : (readFollow .standard .lowest b s).Gives a s') (hb : (Phrase.element b).Spans s₀ s) :
    (Phrase.type a).Spans s₀ s' ∧ s'.current.kind ≠ .openBracket := by
  obtain ⟨ts, hts, hspell⟩ := hb
  rcases readFollow_gives.mp h with ⟨hne, rfl, rfl⟩ | ⟨o, s₁, c, s₂, ho, hc, hf⟩
  · exact ⟨⟨ts, hts, .typeElement hspell⟩, hne⟩
  · have := ho.1.size_lt
    have := hc.1.size_lt
    exact readFollow_spans hf
      ⟨ts ++ [o, c], hts.trans (ho.1.trans hc.1), .typeArray hspell ho.2 hc.2⟩
termination_by (s.size, 0)

theorem readProc_spans {s s' : TokenStream} {a : TypeExpr}
    (h : (readProc .standard s).Gives a s') :
    (Phrase.type a).Spans s s' ∧ s'.current.kind ≠ .openBracket := by
  simp only [readProc, gives_andThen, gives_need, gives_ok, exists_prop] at h
  obtain ⟨t, s₁, ht, o, s₂, ho, as, s₃, has, c, s₄, hc, arrow, s₅, harrow, r, s₆, hr, rfl, rfl⟩ := h
  have := ht.1.size_lt
  have := ho.1.size_lt
  have := has.lt
  have := hc.1.size_lt
  have := harrow.1.size_lt
  obtain ⟨ts, hts, hspells⟩ := readList_spans has
  obtain ⟨⟨us, hus, hspells'⟩, hne⟩ := read_spans hr
  refine ⟨⟨_, ht.1.trans (ho.1.trans (hts.trans (hc.1.trans (harrow.1.trans hus)))), ?_⟩, hne⟩
  exact .typeProc ht.2 ho.2 hspells hc.2 harrow.2 hspells'
termination_by (s.size, 0)

theorem readList_spans {s s' : TokenStream} {as : List TypeExpr}
    (h : (readList .standard s).Gives as s') : (Phrase.types as).Spans s s' := by
  rcases readList_gives.mp h with ⟨-, rfl, rfl⟩ | ⟨a, s₁, ha, hl⟩
  · exact ⟨[], .nil _, .typesNil⟩
  · have := ha.lt
    obtain ⟨⟨ts, hts, hspells⟩, -⟩ := read_spans ha
    cases hl with
    | last => exact ⟨ts, hts, .typesLast hspells⟩
    | @cons c s₂ _ as hc hm =>
      have := hc.1.size_lt
      obtain ⟨us, hus, hspells'⟩ := readList_spans hm
      exact ⟨_, hts.trans (hc.1.trans hus), .typesCons hspells hc.2 hspells'⟩
termination_by (s.size, 2)

end

theorem readAfter?_spans {a? : Option TypeExpr} (hk : k = .colon ∨ k = .arrow)
    (h : (readAfter? .standard k s).Gives a? s') : (Phrase.ascription k a?).Spans s s' := by
  have hne : k ≠ .endOfInput := by rcases hk with rfl | rfl <;> decide
  rcases (readAfter?_gives hne).mp h with ⟨-, rfl, rfl⟩ | ⟨t, s₁, a, ht, ha, rfl⟩
  · exact ⟨[], .nil _, .ascriptionNone hk⟩
  · obtain ⟨⟨ts, hts, hspells⟩, -⟩ := read_spans ha
    exact ⟨_, ht.1.trans hts, .ascriptionSome hk ht.2 hspells⟩

end TypeExpr

theorem Parameter.readList_spans {s s' : TokenStream} {ps : List Parameter}
    (h : (readList .standard s).Gives ps s') : (Phrase.parameters ps).Spans s s' := by
  rcases readList_gives.mp h with ⟨-, rfl, rfl⟩ | ⟨t, s₁, type?, s₂, ht, htype, hl⟩
  · exact ⟨[], .nil _, .parametersNil⟩
  · obtain ⟨ts, hts, hspells⟩ := TypeExpr.readAfter?_spans (.inl rfl) htype
    have hfirst : s.Consumes (t :: ts) s₂ := ht.1.trans hts
    have hparameter := Spells.parameter ht.2 hspells
    rw [← hfirst.lastEnd_eq] at hparameter
    cases hl with
    | last => exact ⟨_, hfirst, .parametersLast hparameter⟩
    | @cons c s₃ _ ps hc hm =>
      have := ht.1.size_lt
      have := htype.lt
      have := hc.1.size_lt
      obtain ⟨us, hus, hspells'⟩ := readList_spans hm
      exact ⟨_, hfirst.trans (hc.1.trans hus), .parametersCons hparameter hc.2 hspells'⟩
termination_by s.size

theorem Parameter.readAll_spans {ps : List Parameter} (h : (readAll .standard s).Gives ps s') :
    ∃ (o : Token) (ts : List Token) (c : Token), s.Consumes (o :: (ts ++ [c])) s' ∧
      o.kind = .openParen ∧ Spells ts (.parameters ps) ∧ c.kind = .closeParen := by
  simp only [readAll, gives_andThen, gives_need, gives_ok, exists_prop] at h
  obtain ⟨o, s₁, ho, ps, s₂, hps, c, s₃, hc, rfl, rfl⟩ := h
  obtain ⟨ts, hts, hspells⟩ := readList_spans hps
  exact ⟨o, ts, c, ho.1.trans (hts.trans hc.1), ho.2, hspells, hc.2⟩

/-- The stratum of what is read with a power. Operands are unary expressions at most, as an operator
in front of them stands for itself. -/
def Power.stratum : Power → Power
  | lowest => disjunction
  | disjunction => conjunction
  | conjunction => relation
  | relation => sum
  | sum => product
  | product | unary | call => unary

theorem Power.rank_stratum (p : Power) : p.stratum.rank = min (p.rank + 1) 6 := by
  cases p <;> rfl

theorem BinaryOp.stratum_power (op : BinaryOp) : op.power.stratum = op.power.above := by
  cases op <;> rfl

theorem TokenStream.stops_call (s : TokenStream) : s.Stops .call :=
  fun q _ _ => q.rank_le

namespace Expr

theorem spells_of_ofToken? {t : Token} {e : Expr} (h : ofToken? t = some e) :
    Spells [t] (.expr .call e) := by
  unfold ofToken? at h
  split at h
  · next hk =>
    obtain ⟨v, hv, rfl⟩ := Option.map_eq_some_iff.mp h
    exact .number hk hv
  · next hk =>
    cases h
    exact .name hk
  · next hk =>
    cases h
    exact .text hk
  · next hk =>
    cases h
    exact .isTrue hk
  · next hk =>
    cases h
    exact .isFalse hk
  · cases h

-- A reader that takes no token before it calls another stands above it in the measure.
mutual

theorem read_spans {s s' : TokenStream} {p : Power} {e : Expr}
    (h : (read .standard p s).Gives e s') :
    (Phrase.expr p.stratum e).Spans s s' ∧ s'.Stops p := by
  rw [read, gives_andThen] at h
  obtain ⟨left, s₁, hleft, hf⟩ := h
  have := hleft.lt
  have hrank := p.rank_stratum
  rcases readStart_spans hleft with hspans | ⟨hspans, hstops⟩
  · exact readFollow_spans (gives_widen.mp hf) hspans s₁.stops_call
      (by rw [hrank]; exact Nat.le_trans (Nat.min_le_right _ _) (by decide))
  · exact readFollow_spans (gives_widen.mp hf) hspans hstops
      (by rw [hrank]; exact Nat.min_le_right _ _)
termination_by 4 * s.size + 2
decreasing_by all_goals omega

theorem readStart_spans {s s' : TokenStream} {e : Expr} (h : (readStart .standard s).Gives e s') :
    (Phrase.expr .call e).Spans s s' ∨ (Phrase.expr .unary e).Spans s s' ∧ s'.Stops .unary := by
  cases readStart_gives.mp h with
  | primary ht he => exact .inl ⟨_, ht, spells_of_ofToken? he⟩
  | unary ht hop hx =>
    have := ht.size_lt
    obtain ⟨⟨ts, hts, hspells⟩, hstops⟩ := read_spans hx
    exact .inr ⟨⟨_, ht.trans hts, .unary hop hspells⟩, hstops⟩
  | unit ho hc => exact .inl ⟨_, ho.1.trans hc.1, .unit ho.2 hc.2⟩
  | grouping ho he hc =>
    have := ho.1.size_lt
    obtain ⟨⟨ts, hts, hspells⟩, -⟩ := read_spans he
    exact .inl ⟨_, ho.1.trans (hts.trans hc.1), .grouping ho.2 hspells hc.2⟩
  | block h =>
    obtain ⟨ts, hts, hspells⟩ := readBlock_spans h
    exact .inl ⟨ts, hts, .ofBlock hspells⟩
  | branch h =>
    obtain ⟨ts, hts, hspells⟩ := readBranch_spans h
    exact .inl ⟨ts, hts, .ofBranch hspells⟩
  | letIn h => exact .inl (readLet_spans h)
  | procedure h => exact .inl (readProcedure_spans h)
termination_by 4 * s.size + 1
decreasing_by all_goals omega

/-- `left` has been read already: it is of a stratum `r`, and no stronger operator comes next. -/
theorem readFollow_spans {s s' s₀ : TokenStream} {p r : Power} {left e : Expr}
    (h : (readFollow .standard p left s).Gives e s') (hleft : (Phrase.expr r left).Spans s₀ s)
    (hstops : s.Stops r) (hr : p.stratum.rank ≤ r.rank) :
    (Phrase.expr p.stratum e).Spans s₀ s' ∧ s'.Stops p := by
  obtain ⟨ts, hts, hspells⟩ := hleft
  have hrank := p.rank_stratum
  cases readFollow_gives.mp h with
  | stop hs => exact ⟨⟨ts, hts, hspells.weaken hr⟩, hs⟩
  | @binary t op right _ s₁ s₂ _ ht hop hp hright hf =>
    have := ht.size_lt
    have := hright.lt
    have hq : op.power.rank ≤ r.rank := by
      refine hstops _ .binary ?_
      rw [ht.current_eq]
      exact Grammar.follow?_binary.mpr ⟨op, hop, rfl⟩
    obtain ⟨⟨us, hus, hspells'⟩, hstops'⟩ := read_spans hright
    rw [op.stratum_power] at hspells'
    exact readFollow_spans hf
      ⟨_, hts.trans (ht.trans hus), .binary (hspells.weaken hq) hop hspells'⟩ hstops' (by omega)
  | @call o c arguments _ s₁ s₂ s₃ _ ho hp ha hc hf =>
    have := ho.1.size_lt
    have := ha.lt
    have := hc.1.size_lt
    have hq : Power.call.rank ≤ r.rank := by
      refine hstops _ .call ?_
      rw [ho.kind_eq]
      rfl
    obtain ⟨us, hus, hspells'⟩ := readArguments_spans ha
    exact readFollow_spans hf ⟨_, hts.trans (ho.1.trans (hus.trans hc.1)),
      .call (hspells.weaken hq) ho.2 hspells' hc.2⟩ s₃.stops_call (by omega)
termination_by 4 * s.size
decreasing_by all_goals omega

theorem readArguments_spans {s s' : TokenStream} {es : List Expr}
    (h : (readArguments .standard s).Gives es s') : (Phrase.arguments es).Spans s s' := by
  rcases readArguments_gives.mp h with ⟨-, rfl, rfl⟩ | ⟨e, s₁, he, hl⟩
  · exact ⟨[], .nil _, .argumentsNil⟩
  · have := he.lt
    obtain ⟨⟨ts, hts, hspells⟩, -⟩ := read_spans he
    cases hl with
    | last => exact ⟨ts, hts, .argumentsLast hspells⟩
    | @cons c s₂ _ es hc hm =>
      have := hc.1.size_lt
      obtain ⟨us, hus, hspells'⟩ := readArguments_spans hm
      exact ⟨_, hts.trans (hc.1.trans hus), .argumentsCons hspells hc.2 hspells'⟩
termination_by 4 * s.size + 3
decreasing_by all_goals omega

theorem readBlock_spans {s s' : TokenStream} {e : Expr} (h : (readBlock .standard s).Gives e s') :
    (Phrase.block e).Spans s s' := by
  simp only [readBlock, gives_andThen, gives_need, gives_ok, exists_prop] at h
  obtain ⟨o, s₁, ho, es, s₂, hes, c, s₃, hc, rfl, rfl⟩ := h
  have := ho.1.size_lt
  obtain ⟨ts, hts, hspells⟩ := readBody_spans hes
  exact ⟨_, ho.1.trans (hts.trans hc.1), .block ho.2 hspells hc.2⟩
termination_by 4 * s.size
decreasing_by all_goals omega

theorem readBody_spans {s s' : TokenStream} {es : List Expr}
    (h : (readBody .standard s).Gives es s') : (Phrase.body es).Spans s s' := by
  rcases readBody_gives.mp h with ⟨-, rfl, rfl⟩ | ⟨e, s₁, he, hl⟩
  · exact ⟨[], .nil _, .bodyNil⟩
  · have := he.lt
    obtain ⟨⟨ts, hts, hspells⟩, -⟩ := read_spans he
    cases hl with
    | last => exact ⟨ts, hts, .bodyLast hspells⟩
    | unit ht => exact ⟨_, hts.trans ht.1, .bodyUnit hspells ht.2⟩
    | @cons t e' es s₂ _ ht hes =>
      have := ht.1.size_lt
      obtain ⟨us, hus, hspells'⟩ := readBody_spans hes
      exact ⟨_, hts.trans (ht.1.trans hus), .bodyCons hspells ht.2 hspells'⟩
termination_by 4 * s.size + 3
decreasing_by all_goals omega

theorem readBranch_spans {s s' : TokenStream} {e : Expr} (h : (readBranch .standard s).Gives e s') :
    (Phrase.branch e).Spans s s' := by
  obtain ⟨t, s₁, c, s₂, x, s₃, ht, hc, hx, helse⟩ := readBranch_gives.mp h
  have := ht.1.size_lt
  have := hc.lt
  have := hx.lt
  obtain ⟨⟨ts, hts, hspells⟩, -⟩ := read_spans hc
  obtain ⟨us, hus, hspells'⟩ := readBlock_spans hx
  rcases helse with ⟨-, rfl, rfl⟩ | ⟨u, s₄, y, hu, hy | hy, rfl⟩
  · exact ⟨t :: (ts ++ us), ht.1.trans (hts.trans hus), .branch ht.2 hspells hspells'⟩
  · have := hu.1.size_lt
    obtain ⟨vs, hvs, hspells''⟩ := readBranch_spans hy
    exact ⟨_, ht.1.trans (hts.trans (hus.trans (hu.1.trans hvs))),
      .branchElseIf ht.2 hspells hspells' hu.2 hspells''⟩
  · have := hu.1.size_lt
    obtain ⟨vs, hvs, hspells''⟩ := readBlock_spans hy
    exact ⟨_, ht.1.trans (hts.trans (hus.trans (hu.1.trans hvs))),
      .branchElse ht.2 hspells hspells' hu.2 hspells''⟩
termination_by 4 * s.size
decreasing_by all_goals omega

theorem readLet_spans {s s' : TokenStream} {e : Expr} (h : (readLet .standard s).Gives e s') :
    (Phrase.expr .call e).Spans s s' := by
  simp only [readLet, gives_andThen, gives_need, gives_ok, exists_prop] at h
  obtain ⟨t, s₁, ht, ds, s₂, hds, b, s₃, hb, rfl, rfl⟩ := h
  have := ht.1.size_lt
  have := hds.lt
  obtain ⟨ts, hts, hspells⟩ := readDeclarations_spans hds
  obtain ⟨us, hus, hspells'⟩ := readBlock_spans hb
  exact ⟨t :: (ts ++ us), ht.1.trans (hts.trans hus), .letIn ht.2 hspells hspells'⟩
termination_by 4 * s.size
decreasing_by all_goals omega

theorem readDeclarations_spans {s s' : TokenStream} {ds : List (Declaration Expr)}
    (h : (readDeclarations .standard s).Gives ds s') : (Phrase.declarations ds).Spans s s' := by
  obtain ⟨t, s₁, type?, s₂, a, s₃, value, s₄, ht, htype, ha, hvalue, hl⟩ :=
    readDeclarations_gives.mp h
  have := ht.1.size_lt
  have := htype.lt
  have := ha.1.size_lt
  have := hvalue.lt
  obtain ⟨ts, hts, hspells⟩ := TypeExpr.readAfter?_spans (.inl rfl) htype
  obtain ⟨⟨us, hus, hspells'⟩, -⟩ := read_spans hvalue
  have hfirst := ht.1.trans (hts.trans (ha.1.trans hus))
  have hdeclaration := Spells.declaration ht.2 hspells ha.2 hspells'
  cases hl with
  | last => exact ⟨_, hfirst, .declarationsLast hdeclaration⟩
  | @cons c s₅ _ ds hc hm =>
    have := hc.1.size_lt
    obtain ⟨vs, hvs, hspells''⟩ := readDeclarations_spans hm
    exact ⟨_, hfirst.trans (hc.1.trans hvs), .declarationsCons hdeclaration hc.2 hspells''⟩
termination_by 4 * s.size
decreasing_by all_goals omega

theorem readProcedure_spans {s s' : TokenStream} {e : Expr}
    (h : (readProcedure .standard s).Gives e s') : (Phrase.expr .call e).Spans s s' := by
  simp only [readProcedure, gives_andThen, gives_need, gives_ok, exists_prop] at h
  obtain ⟨t, s₁, ht, l, s₂, hl, rfl, rfl⟩ := h
  have := ht.1.size_lt
  obtain ⟨ts, hts, hspells⟩ := readSignature_spans hl
  exact ⟨_, ht.1.trans hts, .procedure ht.2 hspells⟩
termination_by 4 * s.size
decreasing_by all_goals omega

theorem readSignature_spans {s s' : TokenStream} {start : Position} {l : Procedure Expr}
    (h : (readSignature .standard start s).Gives l s') : (Phrase.signature start l).Spans s s' := by
  simp only [readSignature, gives_andThen, gives_ok, exists_prop] at h
  obtain ⟨ps, s₁, hps, result?, s₂, hresult, b, s₃, hb, rfl, rfl⟩ := h
  have := hps.lt
  have := hresult.lt
  obtain ⟨o, ts, c, hts, ho, hspells, hc⟩ := Parameter.readAll_spans hps
  obtain ⟨us, hus, hspells'⟩ := TypeExpr.readAfter?_spans (.inr rfl) hresult
  obtain ⟨vs, hvs, hspells''⟩ := readBlock_spans hb
  refine ⟨o :: (ts ++ c :: (us ++ vs)), ?_, .signature ho hspells hc hspells' hspells''⟩
  simpa using hts.trans (hus.trans hvs)
termination_by 4 * s.size
decreasing_by all_goals omega

end

end Expr

namespace Item

theorem readBinding_spans {name : String} {type? : Option TypeExpr} {value : Expr}
    (h : (readBinding .standard s).Gives (name, type?, value) s') :
    (Phrase.binding name type? value s'.lastEnd).Spans s s' := by
  simp only [readBinding, gives_andThen, gives_needOr, gives_need, gives_ok, exists_prop] at h
  obtain ⟨t, s₁, ht, type?, s₂, htype, a, s₃, ha, value, s₄, hvalue, semi, s₅, hsemi, heq, rfl⟩ := h
  cases heq
  obtain ⟨ts, hts, hspells⟩ := TypeExpr.readAfter?_spans (.inl rfl) htype
  obtain ⟨⟨us, hus, hspells'⟩, -⟩ := Expr.read_spans hvalue
  rw [hsemi.1.lastEnd_eq]
  exact ⟨_, ht.1.trans (hts.trans (ha.1.trans (hus.trans hsemi.1))),
    .binding ht.2 hspells ha.2 hspells' hsemi.2⟩

theorem read_spans {i : Item} (h : (read .standard s).Gives i s') : (Phrase.item i).Spans s s' := by
  rcases read_gives.mp h with h | h | h | h
  · simp only [readProcedure, gives_andThen, gives_needOr, gives_need, gives_ok, exists_prop] at h
    obtain ⟨t, s₁, ht, n, s₂, hn, l, s₃, hl, rfl, rfl⟩ := h
    obtain ⟨ts, hts, hspells⟩ := Expr.readSignature_spans hl
    exact ⟨_, ht.1.trans (hn.1.trans hts), .itemProcedure ht.2 hn.2 hspells⟩
  · simp only [readConstant, gives_andThen, gives_need, gives_ok, exists_prop] at h
    obtain ⟨t, s₁, ht, ⟨name, type?, value⟩, s₂, hb, rfl, rfl⟩ := h
    obtain ⟨ts, hts, hspells⟩ := readBinding_spans hb
    exact ⟨_, ht.1.trans hts, .itemConstant ht.2 hspells⟩
  · simp only [readMutable, gives_andThen, gives_need, gives_ok, exists_prop] at h
    obtain ⟨t, s₁, ht, ⟨name, type?, value⟩, s₂, hb, rfl, rfl⟩ := h
    obtain ⟨ts, hts, hspells⟩ := readBinding_spans hb
    exact ⟨_, ht.1.trans hts, .itemMutable ht.2 hspells⟩
  · simp only [readEntry, gives_andThen, gives_need, gives_ok, exists_prop] at h
    obtain ⟨t, s₁, ht, b, s₂, hb, rfl, rfl⟩ := h
    obtain ⟨ts, hts, hspells⟩ := Expr.readBlock_spans hb
    exact ⟨_, ht.1.trans hts, .itemEntry ht.2 hspells⟩

/-- Items are read up to the end of input, and there is one entry among them at most. -/
theorem readAll_spans {s s' : TokenStream} {seen : Bool} {is : List Item}
    (h : (readAll .standard seen s).Gives is s') :
    (Phrase.items is).Spans s s' ∧ s'.current.kind = .endOfInput ∧
      is.countP Item.isEntry + seen.toNat ≤ 1 := by
  rcases readAll_gives.mp h with ⟨hk, rfl, rfl⟩ | ⟨i, s₁, more, hi, hseen, hm, rfl⟩
  · exact ⟨⟨[], .nil _, .itemsNil⟩, hk, by simpa using seen.toNat_le⟩
  · have := hi.lt
    obtain ⟨ts, hts, hspells⟩ := read_spans hi
    obtain ⟨⟨us, hus, hspells'⟩, hk, hcount⟩ := readAll_spans hm
    refine ⟨⟨_, hts.trans hus, .itemsCons hspells hspells'⟩, hk, ?_⟩
    rw [List.countP_cons]
    cases seen <;> cases he : i.isEntry <;> simp_all
termination_by s.size

end Item

end RootedC
