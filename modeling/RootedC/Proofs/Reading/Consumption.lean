import RootedC.Reading.Outcome

/-!
What a successful reading has taken off the stream. The tokens taken stand in front of those that
are left, and only the end of the last of them is remembered.
-/
namespace RootedC

namespace TokenStream

/-- Taking the tokens `ts` leads from one stream to another. -/
inductive Consumes : TokenStream → List Token → TokenStream → Prop
  | nil (s : TokenStream) : Consumes s [] s
  | cons {t : Token} {rest ts : List Token} {mark : EndMark} {lastEnd : Position} {s' : TokenStream}
    (h : Consumes ⟨rest, mark, t.span.stop⟩ ts s') :
    Consumes ⟨t :: rest, mark, lastEnd⟩ (t :: ts) s'

variable {s s' s₁ s₂ : TokenStream} {t : Token} {ts us : List Token} {k : Kind}

theorem consumes_nil : s.Consumes [] s' ↔ s' = s := by
  constructor
  · intro h
    cases h
    rfl
  · rintro rfl
    exact .nil _

theorem Consumes.trans (h : s.Consumes ts s₁) (h' : s₁.Consumes us s') :
    s.Consumes (ts ++ us) s' := by
  induction h with
  | nil s => exact h'
  | cons h ih => exact .cons (ih h')

theorem consumes_append :
    s.Consumes (ts ++ us) s' ↔ ∃ s₁, s.Consumes ts s₁ ∧ s₁.Consumes us s' := by
  constructor
  · intro h
    induction ts generalizing s with
    | nil => exact ⟨s, .nil s, h⟩
    | cons t ts ih =>
      cases h with
      | cons h =>
        obtain ⟨s₁, hts, hus⟩ := ih h
        exact ⟨s₁, .cons hts, hus⟩
  · rintro ⟨s₁, hts, hus⟩
    exact hts.trans hus

theorem consumes_cons :
    s.Consumes (t :: ts) s' ↔ ∃ s₁, s.Consumes [t] s₁ ∧ s₁.Consumes ts s' := by
  rw [← consumes_append, List.singleton_append]

theorem Consumes.rest_eq (h : s.Consumes ts s') : s.rest = ts ++ s'.rest := by
  induction h with
  | nil s => rfl
  | cons h ih => simp only [List.cons_append, List.cons.injEq, true_and]; exact ih

theorem Consumes.mark_eq (h : s.Consumes ts s') : s'.mark = s.mark := by
  induction h with
  | nil s => rfl
  | cons h ih => exact ih

theorem Consumes.size_eq (h : s.Consumes ts s') : s.size = ts.length + s'.size := by
  rw [size, h.rest_eq, List.length_append, size]

theorem Consumes.size_lt (h : s.Consumes (t :: ts) s') : s'.size < s.size := by
  rw [h.size_eq, List.length_cons]
  omega

theorem Consumes.current_eq (h : s.Consumes (t :: ts) s') : s.current = t := by
  rw [current, h.rest_eq]
  rfl

/-- Taking one token of a kind. -/
def Takes (s : TokenStream) (k : Kind) (t : Token) (s' : TokenStream) : Prop :=
  s.Consumes [t] s' ∧ t.kind = k

/-- Where the last of some tokens ends, the first of which is `t`. -/
def lastStop (t : Token) (ts : List Token) : Position := ((t :: ts).getLast (by simp)).span.stop

theorem Consumes.lastEnd_eq (h : s.Consumes (t :: ts) s') : s'.lastEnd = lastStop t ts := by
  induction ts generalizing s t with
  | nil =>
    cases h with
    | cons h =>
      cases h
      rfl
  | cons u us ih =>
    cases h with
    | cons h => exact ih h

/-- Two ways to take the same tokens lead to the same stream. -/
theorem Consumes.unique (h : s.Consumes ts s₁) (h' : s.Consumes ts s₂) : s₁ = s₂ := by
  induction h with
  | nil s => exact (consumes_nil.mp h').symm
  | cons h ih =>
    cases h' with
    | cons h' => exact ih h'

theorem next?_eq_none (h : s.next? = none) : s.rest = [] := by
  obtain ⟨rest, mark, lastEnd⟩ := s
  cases rest with
  | nil => rfl
  | cons t rest => cases h

theorem Consumes.of_next? {x : Taken s} (h : s.next? = some x) : s.Consumes [x.token] x.next := by
  obtain ⟨rest, mark, lastEnd⟩ := s
  cases rest with
  | nil => cases h
  | cons t rest =>
    cases h
    exact .cons (.nil _)

theorem Consumes.next?_eq (h : s.Consumes [t] s₁) : ∃ hlt, s.next? = some ⟨t, s₁, hlt⟩ := by
  cases h with
  | cons h =>
    cases h
    exact ⟨by simp [size], rfl⟩

theorem Takes.take?_eq (h : s.Takes k t s₁) : ∃ hlt, s.take? k = some ⟨t, s₁, hlt⟩ := by
  obtain ⟨hlt, hnext⟩ := h.1.next?_eq
  exact ⟨hlt, by simp [take?, hnext, h.2]⟩

theorem Takes.of_take? {x : Taken s} (h : s.take? k = some x) :
    s.Takes k x.token x.next := by
  obtain ⟨hnext, hk⟩ := Option.filter_eq_some_iff.mp h
  exact ⟨.of_next? hnext, by simpa using hk⟩

theorem take?_eq_none (h : s.current.kind ≠ k) : s.take? k = none := by
  cases hx : s.take? k with
  | none => rfl
  | some x =>
    obtain ⟨hc, hk⟩ := Takes.of_take? hx
    exact absurd (hc.current_eq ▸ hk) h

theorem current_ne_of_take? (h : s.take? k = none) (hk : k ≠ .endOfInput) :
    s.current.kind ≠ k := by
  obtain ⟨rest, mark, lastEnd⟩ := s
  cases rest with
  | nil => exact fun h => hk h.symm
  | cons t rest =>
    intro ht
    have hc : (⟨t :: rest, mark, lastEnd⟩ : TokenStream).Consumes [t] ⟨rest, mark, t.span.stop⟩ :=
      .cons (.nil _)
    obtain ⟨_, htake⟩ := Takes.take?_eq ⟨hc, ht⟩
    rw [htake] at h
    cases h

end TokenStream

namespace Outcome

open TokenStream

variable {α β : Type} {m n : Nat} {a : α} {b : β} {s t : TokenStream} {k : Kind}

/-- The outcome is this value with this stream behind it. -/
def Gives (o : Outcome n α) (a : α) (s : TokenStream) : Prop := ∃ h, o = .ok a s h

theorem Gives.lt {o : Outcome n α} (h : o.Gives a s) : s.size < n := h.1

@[simp] theorem gives_ok {a' : α} {s' : TokenStream} {h : s'.size < n} :
    (ok a' s' h).Gives a s ↔ a' = a ∧ s' = s := by
  constructor
  · rintro ⟨_, heq⟩
    cases heq
    exact ⟨rfl, rfl⟩
  · rintro ⟨rfl, rfl⟩
    exact ⟨h, rfl⟩

@[simp] theorem not_gives_fail {d : Diagnostic} {s' : TokenStream} :
    ¬ (fail d s' : Outcome n α).Gives a s := nofun

theorem gives_andThen {o : Outcome m α}
    {f : (a : α) → (s : TokenStream) → s.size < m → Outcome n β} :
    (o.andThen f).Gives b t ↔ ∃ a s, ∃ h : o.Gives a s, (f a s h.lt).Gives b t := by
  cases o with
  | fail d s =>
    constructor
    · exact nofun
    · rintro ⟨a, s, h, -⟩
      exact absurd h not_gives_fail
  | ok a s h =>
    constructor
    · exact fun hf => ⟨a, s, ⟨h, rfl⟩, hf⟩
    · rintro ⟨a', s', hg, hf⟩
      obtain ⟨rfl, rfl⟩ := gives_ok.mp hg
      exact hf

@[simp] theorem gives_widen {o : Outcome m α} {h : m ≤ n} :
    (o.widen h).Gives a s ↔ o.Gives a s := by
  cases o with
  | fail d s => exact iff_of_false nofun nofun
  | ok a s hs => exact gives_ok.trans gives_ok.symm

@[simp] theorem gives_needOr {u : Token} {d : Diagnostic} :
    (s.needOr k d).Gives u t ↔ s.Takes k u t := by
  unfold needOr
  constructor
  · intro h
    cases hx : s.take? k with
    | none => simp [hx] at h
    | some x =>
      simp only [hx, gives_ok] at h
      obtain ⟨rfl, rfl⟩ := h
      exact Takes.of_take? hx
  · intro h
    obtain ⟨hlt, htake⟩ := h.take?_eq
    simp [htake]

@[simp] theorem gives_need {u : Token} : (s.need k).Gives u t ↔ s.Takes k u t :=
  gives_needOr

@[simp] theorem not_gives_unexpected : ¬ (s.unexpected : Outcome n α).Gives a t := nofun

@[simp] theorem not_gives_unexpectedThere {hint : String} :
    ¬ (s.unexpectedThere hint : Outcome n α).Gives a t := nofun

/-- Where reading goes on depends on the next token. -/
theorem gives_take? (hk : k ≠ .endOfInput) {o : Outcome n β}
    {f : (u : Token) → (s₁ : TokenStream) → s₁.size < s.size → Outcome n β} :
    (match s.take? k with
      | none => o
      | some ⟨u, s₁, h⟩ => f u s₁ h).Gives b t ↔
    (s.current.kind ≠ k ∧ o.Gives b t) ∨
      ∃ u s₁ h, s.Takes k u s₁ ∧ (f u s₁ h).Gives b t := by
  cases hx : s.take? k with
  | none =>
    constructor
    · exact fun ho => .inl ⟨current_ne_of_take? hx hk, ho⟩
    · rintro (⟨-, ho⟩ | ⟨u, s₁, h, ⟨hc, hu⟩, -⟩)
      · exact ho
      · exact absurd (hc.current_eq ▸ hu) (current_ne_of_take? hx hk)
  | some x =>
    obtain ⟨hc, hu⟩ := Takes.of_take? hx
    constructor
    · exact fun hf => .inr ⟨x.token, x.next, x.lt, ⟨hc, hu⟩, hf⟩
    · rintro (⟨hne, -⟩ | ⟨u, s₁, h, ⟨hc', -⟩, hf⟩)
      · exact absurd (hc.current_eq ▸ hu) hne
      · obtain rfl : x.token = u := hc.current_eq.symm.trans hc'.current_eq
        obtain rfl := hc.unique hc'
        exact hf

end Outcome

end RootedC
