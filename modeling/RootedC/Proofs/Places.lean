import RootedC.Diagnostic.Basic
import RootedC.Proofs.Outcome

/-!
Results and runs up to the places that they speak of. A run without places does what the run with
them does, says the same about what is wrong, and gives the same value without places.
-/
namespace RootedC

/-- A diagnostic without a place. -/
def Diagnostic.bare (d : Diagnostic) : Diagnostic := ⟨d.cause, .nowhere⟩

section Results
variable {α β γ δ : Type}

/-- A result without places; `g` takes them off the value. -/
def bareResult (g : α → β) : Except Diagnostic α → Except Diagnostic β
  | .ok a => .ok (g a)
  | .error d => .error d.bare

theorem bareResult_bind {g : α → β} {h : γ → δ} {f : α → Except Diagnostic γ}
    {k : β → Except Diagnostic δ} (hf : ∀ a, k (g a) = bareResult h (f a))
    (x : Except Diagnostic α) : (bareResult g x >>= k) = bareResult h (x >>= f) := by
  cases x with
  | ok a => exact hf a
  | error d => rfl

/-- Two results that are the same without places: the same value or the same complaint. -/
theorem eq_or_of_bareResult {x y : Except Diagnostic α} (h : bareResult id x = bareResult id y) :
    (∃ a, x = .ok a ∧ y = .ok a) ∨ ∃ d e, x = .error d ∧ y = .error e ∧ d.cause = e.cause := by
  cases x with
  | ok a =>
    cases y with
    | ok b =>
      obtain rfl : a = b := Except.ok.inj h
      exact .inl ⟨a, rfl, rfl⟩
    | error e => cases h
  | error d =>
    cases y with
    | ok b => cases h
    | error e =>
      have hbare : d.bare = e.bare := Except.error.inj h
      exact .inr ⟨d, e, rfl, rfl, (Diagnostic.mk.inj hbare).1⟩

end Results

/-- A step of a run without places, which keeps the state. -/
def bareStep {σ α β : Type} (g : α → β) :
    EStateM.Result Diagnostic σ α → EStateM.Result Diagnostic σ β
  | .ok a s => .ok (g a) s
  | .error d s => .error d.bare s

/-- The second run does what the first one does, without places; `g` takes them off the value. -/
def BareRun {σ α β : Type} (g : α → β) (x : EStateM Diagnostic σ α) (y : EStateM Diagnostic σ β) :
    Prop :=
  ∀ s, y s = bareStep g (x s)

namespace BareRun
variable {σ α β γ δ : Type} {g : α → β}

theorem bind {h : γ → δ} {x : EStateM Diagnostic σ α} {y : EStateM Diagnostic σ β}
    {f : α → EStateM Diagnostic σ γ} {k : β → EStateM Diagnostic σ δ} (hx : BareRun g x y)
    (hf : ∀ a, BareRun h (f a) (k (g a))) : BareRun h (x >>= f) (y >>= k) := by
  intro s
  rw [bind_run, bind_run, hx s]
  cases x s with
  | ok a t => exact hf a t
  | error d t => rfl

theorem pure {a : α} {b : β} (h : b = g a) :
    BareRun g (Pure.pure a : EStateM Diagnostic σ α) (Pure.pure b : EStateM Diagnostic σ β) := by
  intro s
  rw [h]
  rfl

/-- A run that finds nothing wrong and gives nothing with a place. -/
theorem of_ok {x : EStateM Diagnostic σ α} (h : ∀ s, ∃ a t, x s = .ok a t) : BareRun id x x := by
  intro s
  obtain ⟨a, t, hx⟩ := h s
  rw [hx]
  rfl

theorem get : BareRun id (MonadState.get : EStateM Diagnostic σ σ) MonadState.get :=
  fun _ => rfl

end BareRun

end RootedC
