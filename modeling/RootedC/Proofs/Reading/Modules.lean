import RootedC.Proofs.Reading.Completeness

/-!
A list of tokens is read as a module exactly if the tokens before the end of input spell it and it
has one entry at most.
-/
namespace RootedC

namespace TokenStream

variable {s s' : TokenStream} {ts us tokens : List Token}

/-- The tokens before the first end of input. -/
def beforeEnd (tokens : List Token) : List Token := tokens.takeWhile (·.kind ≠ .endOfInput)

/-- Where the first end of input is; tokens without one end with the last of them. -/
def endOf (tokens : List Token) (file : String) : Position :=
  match tokens.find? (·.kind = .endOfInput) with
  | some t => t.span.start
  | none => (tokens.getLast?.map (·.span.stop)).getD ⟨0, file⟩

theorem beforeEnd_splitMark (start : Position) (tokens : List Token) :
    beforeEnd (splitMark start tokens).1 = beforeEnd tokens := by
  fun_induction splitMark start tokens with
  | case1 => rfl
  | case2 t ht => simp [beforeEnd, ht]
  | case3 t ht => rfl
  | case4 t u ts rest mark hsplit ih =>
    rw [hsplit] at ih
    simp only [beforeEnd, List.takeWhile_cons] at ih ⊢
    rw [ih]

theorem beforeEnd_append_endOfInput (h : ∀ t ∈ ts, t.kind ≠ .endOfInput) (s : Span) :
    beforeEnd (ts ++ [Token.endOfInput s]) = ts := by
  rw [beforeEnd, List.takeWhile_append_of_pos (by simpa using h)]
  exact List.append_nil ts

/-- Behind the tokens before the end the stream is at its end. -/
theorem endOf_splitMark (file : String) (tokens : List Token) :
    (((splitMark ⟨0, file⟩ tokens).1.dropWhile (·.kind ≠ .endOfInput)).headD
      (splitMark ⟨0, file⟩ tokens).2.token).span.start = endOf tokens file := by
  fun_induction splitMark ⟨0, file⟩ tokens with
  | case1 => rfl
  | case2 t ht => simp [endOf, ht, EndMark.token]
  | case3 t ht => simp [endOf, ht, EndMark.token, Span.empty]
  | case4 t u ts rest mark hsplit ih =>
    rw [hsplit] at ih
    by_cases ht : t.kind = .endOfInput
    · simp [endOf, ht]
    · simpa [endOf, ht] using ih

theorem exists_consumes (h : s.rest = ts ++ us) : ∃ s', s.Consumes ts s' ∧ s'.rest = us := by
  induction ts generalizing s with
  | nil => exact ⟨s, .nil s, h⟩
  | cons t ts ih =>
    obtain ⟨rest, mark, lastEnd⟩ := s
    cases h
    obtain ⟨s', hs', hrest⟩ := ih (s := ⟨ts ++ us, mark, t.span.stop⟩) rfl
    exact ⟨s', .cons hs', hrest⟩

/-- Where tokens that can be read run up to the end of input, they are all tokens before it. -/
theorem Consumes.eq_beforeEnd (h : s.Consumes ts s') (hts : ∀ t ∈ ts, t.Readable)
    (hend : s'.current.kind = .endOfInput) :
    ts = beforeEnd s.rest ∧ s'.rest = s.rest.dropWhile (·.kind ≠ .endOfInput) := by
  have hall : ∀ t ∈ ts, decide (t.kind ≠ .endOfInput) = true := fun t ht => by
    simpa using (hts t ht).1
  have hrest : s'.rest.takeWhile (·.kind ≠ .endOfInput) = [] ∧
      s'.rest.dropWhile (·.kind ≠ .endOfInput) = s'.rest := by
    cases hs : s'.rest with
    | nil => exact ⟨rfl, rfl⟩
    | cons t rest =>
      have ht : t.kind = .endOfInput := by simpa [current, hs] using hend
      simp [ht]
  rw [beforeEnd, h.rest_eq, List.takeWhile_append_of_pos hall, List.dropWhile_append_of_pos hall,
    hrest.1, hrest.2, List.append_nil]
  exact ⟨rfl, rfl⟩

/-- The tokens before the end lead to the end. -/
theorem exists_consumes_beforeEnd (s : TokenStream) :
    ∃ s', s.Consumes (beforeEnd s.rest) s' ∧ s'.current.kind = .endOfInput := by
  obtain ⟨s', hs', hrest⟩ := exists_consumes (List.takeWhile_append_dropWhile
    (p := fun t : Token => decide (t.kind ≠ .endOfInput)) (l := s.rest)).symm
  refine ⟨s', hs', ?_⟩
  rw [current, hrest]
  cases hd : s.rest.dropWhile (fun t => decide (t.kind ≠ .endOfInput)) with
  | nil => rfl
  | cons t more =>
    have ht := List.head_dropWhile_not (fun t : Token => decide (t.kind ≠ .endOfInput))
      (l := s.rest) (by rw [hd]; exact List.cons_ne_nil _ _)
    simp only [hd, List.head_cons] at ht
    simpa using ht

end TokenStream

namespace Module

open TokenStream

variable {tokens : List Token} {file : String} {m : Module}

theorem ofTokens_eq_ok : ofTokens tokens file = .ok m ↔ ∃ s',
    (Item.readAll .standard false (.ofTokens tokens file)).Gives m.items s' ∧
      m.span = ⟨⟨0, file⟩, s'.current.span.start⟩ := by
  obtain ⟨items, span⟩ := m
  unfold ofTokens
  cases h : Item.readAll .standard false (.ofTokens tokens file) with
  | fail d s => simp
  | ok is s hlt =>
    simp only [Except.ok.injEq, mk.injEq, Outcome.gives_ok]
    constructor
    · rintro ⟨rfl, rfl⟩
      exact ⟨s, ⟨rfl, rfl⟩, rfl⟩
    · rintro ⟨s', ⟨rfl, rfl⟩, rfl⟩
      exact ⟨rfl, rfl⟩

/-- What the items of a module are read from. -/
theorem spells_of_ofTokens (h : ofTokens tokens file = .ok m) :
    Spells (beforeEnd tokens) (.items m.items) ∧ m.items.countP Item.isEntry ≤ 1 ∧
      m.span = ⟨⟨0, file⟩, endOf tokens file⟩ := by
  obtain ⟨s', hread, hspan⟩ := ofTokens_eq_ok.mp h
  obtain ⟨⟨ts, hts, hspells⟩, hend, hcount⟩ := Item.readAll_spans hread
  obtain ⟨rfl, hrest⟩ := hts.eq_beforeEnd hspells.readable hend
  refine ⟨?_, hcount, ?_⟩
  · rw [← beforeEnd_splitMark ⟨0, file⟩]
    exact hspells
  · rw [hspan, current, hrest, hts.mark_eq, ← endOf_splitMark]
    rfl

theorem ofTokens_of_spells {is : List Item} (h : Spells (beforeEnd tokens) (.items is))
    (hcount : is.countP Item.isEntry ≤ 1) :
    ofTokens tokens file = .ok ⟨is, ⟨⟨0, file⟩, endOf tokens file⟩⟩ := by
  rw [← beforeEnd_splitMark ⟨0, file⟩] at h
  obtain ⟨s', hts, hend⟩ := (TokenStream.ofTokens tokens file).exists_consumes_beforeEnd
  obtain ⟨-, hrest⟩ := hts.eq_beforeEnd h.readable hend
  refine ofTokens_eq_ok.mpr ⟨s', Phrase.accepted_of_spells h _ s' hts hend false hcount, ?_⟩
  rw [current, hrest, hts.mark_eq, ← endOf_splitMark]
  rfl

/-- Reading accepts exactly the grammar and loses no token: a list of tokens is read as a module if
and only if all the tokens before the end of input, in order, spell its items and there is one entry
among them at most. Numbers then have values of 32 bits. -/
theorem ofTokens_eq_ok_iff : ofTokens tokens file = .ok m ↔
    Spells (beforeEnd tokens) (.items m.items) ∧
    (∀ t ∈ beforeEnd tokens, t.kind = .number →
      ∃ v, Text.integer? t.value.toList = some v ∧ -2147483648 ≤ v ∧ v < 2147483648) ∧
    m.items.countP Item.isEntry ≤ 1 ∧ m.span = ⟨⟨0, file⟩, endOf tokens file⟩ := by
  constructor
  · intro h
    obtain ⟨hspells, hcount, hspan⟩ := spells_of_ofTokens h
    refine ⟨hspells, fun t ht hk => ?_, hcount, hspan⟩
    obtain ⟨v, hv⟩ := (hspells.readable t ht).2 hk
    obtain ⟨hvalue, hrange⟩ := Option.filter_eq_some_iff.mp hv
    exact ⟨v, hvalue, by simpa [Text.isInt32] using hrange⟩
  · rintro ⟨hspells, -, hcount, hspan⟩
    obtain ⟨items, span⟩ := m
    subst hspan
    exact ofTokens_of_spells hspells hcount

end Module

end RootedC
