import Mathlib.Data.List.Forall2
import RootedC.Proofs.Typing.Settled

/-!
Types are compared as trees. Main statement: the comparison holds exactly between types that are the
same tree, which is the same as having the same constructor at every place; in particular a hole is
matched by nothing but a hole at its place.
-/
namespace RootedC.Ty

variable {t u v : Ty}

/-- The same plain type, both holes, or procedure types with as many parameters, the same ones in
order, and the same result. -/
inductive Identical : Ty → Ty → Prop
  | i32 : Identical i32 i32
  | bool : Identical bool bool
  | str : Identical str str
  | unit : Identical unit unit
  | proc {ps qs : List Ty} {r q : Ty} (hlength : ps.length = qs.length)
    (hparameters : ∀ x ∈ ps.zip qs, Identical x.1 x.2) (hresult : Identical r q) :
    Identical (proc ps r) (proc qs q)
  | hole : Identical hole hole

mutual

theorem Identical.refl : ∀ t : Ty, Identical t t
  | .i32 => .i32
  | .bool => .bool
  | .str => .str
  | .unit => .unit
  | .hole => .hole
  | .proc ps r => .proc rfl (Identical.refl_zip ps) (Identical.refl r)

theorem Identical.refl_zip : ∀ ts : List Ty, ∀ x ∈ ts.zip ts, Identical x.1 x.2
  | [] => by simp
  | t :: ts => by
    intro x hx
    rw [List.zip_cons_cons, List.mem_cons] at hx
    rcases hx with rfl | hx
    · exact Identical.refl t
    · exact Identical.refl_zip ts x hx

end

theorem Identical.eq (h : Identical t u) : t = u := by
  induction h with
  | i32 | bool | str | unit | hole => rfl
  | @proc ps qs r q hlength _ _ ihparameters ihresult =>
    -- The lengths have to agree, a zip alone would pass over the longer list's end.
    have hall : List.Forall₂ (· = ·) ps qs :=
      List.forall₂_iff_zip.mpr ⟨hlength, fun hx => ihparameters _ hx⟩
    rw [List.forall₂_eq_eq_eq] at hall
    rw [hall, ihresult]

theorem same_iff_eq : same t u = true ↔ t = u :=
  (beq_iff_eq : (t == u) = true ↔ t = u)

theorem same_iff_identical : same t u = true ↔ Identical t u := by
  rw [same_iff_eq]
  constructor
  · rintro rfl
    exact Identical.refl t
  · exact Identical.eq

/-- A step into a procedure type. -/
inductive Part where
  | parameter (i : Nat)
  | result
  deriving DecidableEq, Repr

def part? : Ty → Part → Option Ty
  | proc ps _, .parameter i => ps[i]?
  | proc _ r, .result => some r
  | _, _ => none

/-- The type that stands at a place, if the type reaches that far. -/
def at? (t : Ty) : List Part → Option Ty
  | [] => some t
  | p :: path => (t.part? p).bind (·.at? path)

/-- What a type is without its parts. -/
inductive Head where
  | i32 | bool | str | unit | proc | hole
  deriving DecidableEq, Repr

def head : Ty → Head
  | i32 => .i32
  | bool => .bool
  | str => .str
  | unit => .unit
  | proc _ _ => .proc
  | hole => .hole

/-- What stands at a place of a type, without its parts. -/
def headAt? (t : Ty) (path : List Part) : Option Head := (t.at? path).map head

/-- Where two types look alike at all places, so do their parts. -/
theorem part?_alike (h : ∀ path, t.headAt? path = u.headAt? path) (p : Part) :
    Option.Rel (fun a b => ∀ path, a.headAt? path = b.headAt? path) (t.part? p) (u.part? p) := by
  have hp (path : List Part) : ((t.part? p).bind (·.at? path)).map head =
      ((u.part? p).bind (·.at? path)).map head := h (p :: path)
  generalize t.part? p = x, u.part? p = y at hp ⊢
  cases x with
  | none =>
    cases y with
    | none => exact .none
    | some b => simpa [at?] using hp []
  | some a =>
    cases y with
    | none => simpa [at?] using hp []
    | some b => exact .some hp

/-- Types that look alike at all places are the same. -/
theorem eq_of_headAt? {t u : Ty} (h : ∀ path, t.headAt? path = u.headAt? path) : t = u := by
  have hhead : t.head = u.head := by simpa [headAt?, at?] using h []
  match t, u, hhead with
  | i32, i32, _ | bool, bool, _ | str, str, _ | unit, unit, _ | hole, hole, _ => rfl
  | proc ps r, proc qs q, _ =>
    have hresult : r = q := by
      have halike := part?_alike h .result
      simp only [part?] at halike
      cases halike with
      | some hr => exact eq_of_headAt? hr
    have hparameters : ps = qs := by
      apply List.ext_getElem?
      intro i
      have halike := part?_alike h (.parameter i)
      simp only [part?] at halike
      generalize qs[i]? = y at halike ⊢
      cases hp : ps[i]? with
      | none =>
        rw [hp] at halike
        cases halike
        rfl
      | some p =>
        have hsize := List.sizeOf_lt_of_mem (List.mem_of_getElem? hp)
        rw [hp] at halike
        cases halike with
        | some hpq => rw [eq_of_headAt? hpq]
    rw [hresult, hparameters]
termination_by sizeOf t
decreasing_by
  all_goals simp_all
  all_goals omega

theorem same_iff_headAt? : same t u = true ↔ ∀ path, t.headAt? path = u.headAt? path := by
  rw [same_iff_eq]
  constructor
  · rintro rfl path
    rfl
  · exact eq_of_headAt?

theorem same_equivalence : Equivalence fun t u => same t u = true where
  refl := same_self
  symm h := by rw [same_iff_eq] at h ⊢; exact h.symm
  trans h h' := by rw [same_iff_eq] at h h' ⊢; exact h.trans h'

/-- The comparison decides whether two types are the same tree. It holds between types with the same
plain type, with holes, or with as many and the same parameters and the same result; these are equal,
and have the same constructor at every place. So it is an equivalence, and a hole anywhere in one
type stands against a hole at the same place of the other. -/
theorem same_decides_identity (t u : Ty) :
    (same t u = true ↔ Identical t u) ∧ (same t u = true ↔ t = u) ∧
      (same t u = true ↔ ∀ path, t.headAt? path = u.headAt? path) ∧
      (Equivalence fun t u => same t u = true) ∧
      ∀ path, t.at? path = some hole → u.at? path ≠ some hole →
        same t u = false ∧ same u t = false := by
  refine ⟨same_iff_identical, same_iff_eq, same_iff_headAt?, same_equivalence, ?_⟩
  intro path ht hu
  have hne : t ≠ u := by
    rintro rfl
    exact hu ht
  constructor
  · exact Bool.eq_false_iff.mpr fun h => hne (same_iff_eq.mp h)
  · exact Bool.eq_false_iff.mpr fun h => hne (same_iff_eq.mp h).symm

theorem same_decides_identity_nested :
    (proc [bool, proc [hole] i32] str).at? [.parameter 1, .parameter 0] = some hole ∧
      same (proc [bool, proc [hole] i32] str) (proc [bool, proc [i32] i32] str) = false ∧
      same (proc [bool, proc [i32] i32] str) (proc [bool, proc [hole] i32] str) = false :=
  ⟨rfl, (same_decides_identity _ _).2.2.2.2 [.parameter 1, .parameter 0] rfl (by simp [at?, part?])⟩

end RootedC.Ty
