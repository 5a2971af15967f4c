import Mathlib.Tactic.Common
import RootedC.Proofs.Outcome
import RootedC.Typing.Module

/-!
Equality of types and types without holes. Types that are written have no hole, and between types
without holes agreement is equality.
-/
namespace RootedC

namespace Ty

mutual

theorem eq_of_same : ∀ {t u : Ty}, same t u = true → t = u
  | .i32, u, h => by cases u <;> simp_all [same]
  | .bool, u, h => by cases u <;> simp_all [same]
  | .str, u, h => by cases u <;> simp_all [same]
  | .unit, u, h => by cases u <;> simp_all [same]
  | .hole, u, h => by cases u <;> simp_all [same]
  | .proc ps r, u, h => by
    cases u with
    | proc qs q =>
      rw [same, Bool.and_eq_true] at h
      rw [eq_of_sameAll h.1, eq_of_same h.2]
    | _ => simp [same] at h

theorem eq_of_sameAll : ∀ {ts us : List Ty}, sameAll ts us = true → ts = us
  | [], us, h => by cases us <;> simp_all [sameAll]
  | t :: ts, us, h => by
    cases us with
    | nil => simp [sameAll] at h
    | cons u us =>
      rw [sameAll, Bool.and_eq_true] at h
      rw [eq_of_same h.1, eq_of_sameAll h.2]

end

mutual

theorem same_self : ∀ t : Ty, same t t = true
  | .i32 | .bool | .str | .unit | .hole => rfl
  | .proc ps r => by rw [same, sameAll_self ps, same_self r, Bool.and_self]

theorem sameAll_self : ∀ ts : List Ty, sameAll ts ts = true
  | [] => rfl
  | t :: ts => by rw [sameAll, same_self t, sameAll_self ts, Bool.and_self]

end

instance : LawfulBEq Ty where
  eq_of_beq h := eq_of_same h
  rfl := same_self _

mutual

/-- A type with no hole anywhere in it. -/
def settled : Ty → Bool
  | proc ps r => settledAll ps && settled r
  | hole => false
  | _ => true

def settledAll : List Ty → Bool
  | [] => true
  | t :: ts => settled t && settledAll ts

end

theorem settledAll_iff {ts : List Ty} : settledAll ts = true ↔ ∀ t ∈ ts, t.settled = true := by
  induction ts with
  | nil => simp [settledAll]
  | cons t ts ih => simp [settledAll, ih]

theorem settled_proc {ps : List Ty} {r : Ty} :
    (proc ps r).settled = true ↔ (∀ t ∈ ps, t.settled = true) ∧ r.settled = true := by
  rw [settled, Bool.and_eq_true, settledAll_iff]

theorem isHole_eq_false_of_settled {t : Ty} (h : t.settled = true) : t.isHole = false := by
  cases t <;> simp_all [isHole, settled]

/-- Between types without holes agreement is equality. -/
theorem agrees_iff_of_settled {t u : Ty} (ht : t.settled = true) (hu : u.settled = true) :
    t.agrees u = true ↔ t = u := by
  simp [agrees, isHole_eq_false_of_settled ht, isHole_eq_false_of_settled hu]

theorem agrees_self (t : Ty) : t.agrees t = true := by
  simp [agrees]

theorem settle_of_settled {t : Ty} (h : t.settled = true) (u : Ty) : t.settle u = t := by
  simp [settle, isHole_eq_false_of_settled h]

end Ty

theorem Ty.settled_of_ofName? {name : String} {ty : Ty} (h : Ty.ofName? name = some ty) :
    ty.settled = true := by
  unfold Ty.ofName? at h
  split at h <;> cases h <;> rfl

namespace TypeExpr

mutual

/-- What is written has no hole. -/
theorem settled_of_toTy : ∀ {t : TypeExpr} {ty : Ty}, t.toTy = .ok ty → ty.settled = true
  | .name n p, ty, h => by
    rw [toTy] at h
    cases hn : Ty.ofName? n with
    | none => simp [hn] at h
    | some u =>
      simp only [hn, Except.ok.injEq] at h
      exact h ▸ Ty.settled_of_ofName? hn
  | .array _ _, ty, h => by simp [toTy] at h
  | .proc ps r p, ty, h => by
    rw [toTy] at h
    cases hps : toTys ps with
    | error d => simp [hps, bind, Except.bind] at h
    | ok tys =>
      cases hr : r.toTy with
      | error d => simp [hps, hr, bind, Except.bind] at h
      | ok result =>
        simp only [hps, hr, bind, Except.bind, pure, Except.pure, Except.ok.injEq] at h
        subst h
        exact Ty.settled_proc.mpr ⟨settled_of_toTys hps, settled_of_toTy hr⟩

theorem settled_of_toTys : ∀ {ts : List TypeExpr} {tys : List Ty}, toTys ts = .ok tys →
    ∀ ty ∈ tys, ty.settled = true
  | [], tys, h => by
    simp only [toTys, Except.ok.injEq] at h
    simp [← h]
  | t :: ts, tys, h => by
    rw [toTys] at h
    cases ht : t.toTy with
    | error d => simp [ht, bind, Except.bind] at h
    | ok ty =>
      cases hts : toTys ts with
      | error d => simp [ht, hts, bind, Except.bind] at h
      | ok more =>
        simp only [ht, hts, bind, Except.bind, pure, Except.pure, Except.ok.injEq] at h
        subst h
        intro u hu
        rcases List.mem_cons.mp hu with rfl | hu
        · exact settled_of_toTy ht
        · exact settled_of_toTys hts u hu

end

end TypeExpr

theorem Builtin.settled_ty {name : String} {b : Builtin} (h : Builtin.find? name = some b) :
    b.ty.settled = true := by
  have hall : ∀ b ∈ Builtin.table, b.ty.settled = true := by decide
  exact hall b (List.mem_of_find?_eq_some h)

end RootedC
