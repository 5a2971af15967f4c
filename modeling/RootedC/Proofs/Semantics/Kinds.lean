import RootedC.Proofs.Semantics.Value
import RootedC.Typing.Builtin

/-!
Values by their types. A run is safe if it does not get stuck, calls builtins only as they are
declared and gives nothing but values that are wanted.
-/
namespace RootedC

/-- A number of 32 bits. -/
def Value.InRange (n : Int) : Prop := -2147483648 ≤ n ∧ n ≤ 2147483647

instance (n : Int) : Decidable (Value.InRange n) := inferInstanceAs (Decidable (_ ∧ _))

inductive Value.HasTy : Value → Ty → Prop
  | integer {n : Int} (h : InRange n) : HasTy (.integer n) .i32
  | boolean (b : Bool) : HasTy (.boolean b) .bool
  | text (raw : String) (length : Nat) : HasTy (.text raw length) .str
  | unit : HasTy .unit .unit

namespace Value.HasTy

theorem exists_integer {v : Value} (h : v.HasTy .i32) : ∃ n, v = .integer n ∧ InRange n := by
  cases h with
  | integer h => exact ⟨_, rfl, h⟩

theorem exists_boolean {v : Value} (h : v.HasTy .bool) : ∃ b, v = .boolean b := by
  cases h with
  | boolean b => exact ⟨b, rfl⟩

end Value.HasTy

/-- A call of a builtin with as many arguments as it has parameters, each of its type. -/
def Event.WellTyped (e : Event) : Prop :=
  ∃ b, Builtin.find? e.builtin = some b ∧ List.Forall₂ Value.HasTy e.arguments b.parameters

/-- What is answered to such a call has the result type of the builtin. -/
def Oracle.WellTyped (o : Oracle) : Prop :=
  ∀ t name vs b, Builtin.find? name = some b → List.Forall₂ Value.HasTy vs b.parameters →
    (o t name vs).HasTy b.result

namespace Run

/-- A run does not get stuck, its value satisfies `P` if it gives one, and it adds nothing but
well-typed calls of builtins to the trace. -/
def Safe {α : Type} (P : α → Prop) (x : Run α) : Prop :=
  ∀ t, ∃ events : Trace, (∀ e ∈ events, e.WellTyped) ∧
    ((∃ a, x t = .ok a (t ++ events) ∧ P a) ∨ ∃ s, s ≠ .stuck ∧ x t = .error s (t ++ events))

namespace Safe

variable {α β : Type} {P : α → Prop} {Q : β → Prop}

theorem pure {a : α} (h : P a) : Safe P (Pure.pure a) := fun t =>
  ⟨[], by simp, .inl ⟨a, by rw [pure_run, List.append_nil], h⟩⟩

theorem throw {s : Stop} (h : s ≠ .stuck) : Safe P (MonadExcept.throw s) := fun t =>
  ⟨[], by simp, .inr ⟨s, h, by rw [List.append_nil]; rfl⟩⟩

theorem bind {x : Run α} {f : α → Run β} (h : Safe P x) (hf : ∀ a, P a → Safe Q (f a)) :
    Safe Q (x >>= f) := by
  intro t
  obtain ⟨events, he, ⟨a, hx, ha⟩ | ⟨s, hs, hx⟩⟩ := h t
  · obtain ⟨more, hm, hrest⟩ := hf a ha (t ++ events)
    refine ⟨events ++ more, List.forall_mem_append.mpr ⟨he, hm⟩, ?_⟩
    simpa only [bind_run, hx, List.append_assoc] using hrest
  · exact ⟨events, he, .inr ⟨s, hs, by simp only [bind_run, hx]⟩⟩

theorem lift {x : Except Stop α} (h : ∀ a, x = .ok a → P a) (hs : x ≠ .error .stuck) :
    Safe P (Run.lift x) := by
  cases x with
  | ok a => exact pure (h a rfl)
  | error s => exact throw fun hstuck => hs (hstuck ▸ rfl)

/-- Whatever a safe run comes to. -/
theorem of_ok {x : Run α} (h : Safe P x) {t t' : Trace} {a : α} (hx : x t = .ok a t') : P a := by
  obtain ⟨events, -, ⟨b, hb, hP⟩ | ⟨s, -, hs⟩⟩ := h t
  · rw [hx] at hb
    cases hb
    exact hP
  · rw [hx] at hs
    cases hs

theorem builtin {o : Oracle} (ho : o.WellTyped) {name : String} {b : Builtin} {vs : List Value}
    (hb : Builtin.find? name = some b) (hvs : List.Forall₂ Value.HasTy vs b.parameters) :
    Safe (Value.HasTy · b.result) (Run.builtin o name vs) := fun t =>
  ⟨[⟨name, vs⟩], by simpa using ⟨b, hb, hvs⟩, .inl ⟨_, rfl, ho t name vs b hb hvs⟩⟩

end Safe

end Run

open Run

theorem Value.ofInt_ne_stuck (n : Int) : ofInt n ≠ .error .stuck := by
  unfold ofInt
  split <;> simp

theorem Value.ofInt_safe (n : Int) : Safe (HasTy · .i32) (Run.lift (ofInt n)) := by
  refine .lift (fun v hv => ?_) (ofInt_ne_stuck n)
  unfold ofInt at hv
  split at hv
  · next h =>
    cases hv
    exact .integer h
  · cases hv

theorem UnaryOp.apply_safe {op : UnaryOp} {v : Value} (h : v.HasTy op.ty) :
    Safe (Value.HasTy · op.ty) (Run.lift (op.apply v)) := by
  cases op with
  | negate =>
    obtain ⟨n, rfl, -⟩ := h.exists_integer
    exact Value.ofInt_safe (-n)
  | not =>
    obtain ⟨b, rfl⟩ := h.exists_boolean
    exact .pure (.boolean _)

namespace BinaryOp

/-- A remainder is between zero and the dividend. -/
theorem inRange_tmod {a : Int} (h : Value.InRange a) (b : Int) : Value.InRange (a.tmod b) := by
  have hle : (a.tmod b).natAbs ≤ a.natAbs := by
    rw [Int.natAbs_tmod]
    exact Nat.mod_le _ _
  have hsign : 0 ≤ a ∧ 0 ≤ a.tmod b ∨ a ≤ 0 ∧ a.tmod b ≤ 0 := by
    rcases Int.le_total 0 a with ha | ha
    · exact .inl ⟨ha, Int.tmod_nonneg b ha⟩
    · have hneg := Int.tmod_nonneg b (Int.neg_nonneg_of_nonpos ha)
      rw [Int.neg_tmod] at hneg
      exact .inr ⟨ha, by omega⟩
  unfold Value.InRange at h ⊢
  omega

theorem applyToInts_safe {op : BinaryOp} {a : Int} (ha : Value.InRange a) (b : Int)
    (hop : op.worksOn .i32 = true) :
    Safe (Value.HasTy · (op.resultTy .i32)) (Run.lift (op.applyToInts a b)) := by
  cases op with
  | add | sub | mul => exact Value.ofInt_safe _
  | div =>
    simp only [applyToInts]
    split
    · exact .throw (by decide)
    · exact Value.ofInt_safe _
  | mod =>
    simp only [applyToInts]
    split
    · exact .throw (by decide)
    · refine .lift (fun v hv => ?_) fun hv => ?_
      · obtain ⟨_, -, hv⟩ := except_bind_eq_ok.mp hv
        cases hv
        exact .integer (inRange_tmod ha b)
      · cases hq : Value.ofInt (a.tdiv b) with
        | ok q => simp [hq, bind, Except.bind, pure, Except.pure] at hv
        | error s =>
          simp only [hq, bind, Except.bind, Except.error.injEq] at hv
          exact Value.ofInt_ne_stuck _ (hv ▸ hq)
  | and | or => cases hop
  | _ => exact .pure (.boolean _)

theorem applyToBools_safe {op : BinaryOp} (a b : Bool) (hop : op.worksOn .bool = true) :
    Safe (Value.HasTy · (op.resultTy .bool)) (Run.lift (op.applyToBools a b)) := by
  cases op with
  | eq | ne | and | or => exact .pure (.boolean _)
  | _ => cases hop

theorem apply_safe {op : BinaryOp} {ty : Ty} {v u : Value} (hv : v.HasTy ty) (hu : u.HasTy ty)
    (hop : op.worksOn ty = true) :
    Safe (Value.HasTy · (op.resultTy ty)) (Run.lift (op.apply v u)) := by
  cases hv with
  | integer h =>
    obtain ⟨n, rfl, -⟩ := hu.exists_integer
    exact applyToInts_safe h n hop
  | boolean a =>
    obtain ⟨b, rfl⟩ := hu.exists_boolean
    exact applyToBools_safe a b hop
  | text _ _ | unit => cases op <;> cases hop

/-- A connective that the left operand decides gives a truth value. -/
theorem hasTy_of_decided {op : BinaryOp} {v u : Value} (h : op.decided? v = some u) (ty : Ty) :
    u.HasTy (op.resultTy ty) := by
  unfold decided? at h
  split at h
  · cases h
    exact .boolean _
  · cases h
    exact .boolean _
  · cases h

theorem connect_safe {op : BinaryOp} {ty : Ty} {v : Value} {right : Run Value} (hv : v.HasTy ty)
    (hop : op.worksOn ty = true) (hright : Safe (Value.HasTy · ty) right) :
    Safe (Value.HasTy · (op.resultTy ty)) (op.connect v right) := by
  unfold connect
  cases hd : op.decided? v with
  | some u => exact .pure (hasTy_of_decided hd ty)
  | none => exact hright.bind fun u hu => apply_safe hv hu hop

end BinaryOp

end RootedC
