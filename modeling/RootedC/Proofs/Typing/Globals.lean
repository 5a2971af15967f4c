import RootedC.Proofs.Typing.Items
import RootedC.Proofs.Typing.Rules

/-!
The top-level types of a module. They can be collected exactly if the names declared are different
from each other and from those of builtins and every one of them has a type written for it; then the
types are the ones written.
-/
namespace RootedC

namespace Item

/-- The type written for the name that an item declares. -/
def ty? : Item → Option Ty
  | procedure name literal span => (signature name literal span.start).toOption
  | constant _ type? _ _ => type?.bind fun t => t.toTy.toOption
  | mutable _ _ _ _ => none
  | entry _ _ => none

end Item

namespace Lexical

theorem declare_of_none {item : Item} (h : item.name? = none) (G : Bindings Ty) :
    declare G item = some G := by
  cases item with
  | entry body span => rfl
  | _ => cases h

theorem declare_of_some {item : Item} {x : String} (h : item.name? = some x) (G : Bindings Ty) :
    declare G item = if isNew G x then item.ty?.map fun ty => G.bind x ty else none := by
  cases item with
  | entry body span => cases h
  | mutable name type? value span => simp [declare, Item.ty?]
  | _ =>
    cases h
    rfl

theorem isNew_bind {G : Bindings Ty} {x y : String} {ty : Ty} :
    isNew (G.bind x ty) y = true ↔ y ≠ x ∧ isNew G y = true := by
  unfold isNew
  by_cases h : y = x
  · subst h
    simp
  · rw [Bindings.get?_bind_of_ne _ _ h]
    simp [h]

/-- What it takes to declare some items where `G` is declared already, and what is declared then. -/
structure Declared (G : Bindings Ty) (items : List Item) (G' : Bindings Ty) : Prop where
  distinct : (items.filterMap Item.name?).Nodup
  fresh : ∀ x ∈ items.filterMap Item.name?, isNew G x = true
  typed : ∀ item ∈ items, ∀ x, item.name? = some x → ∃ ty, item.ty? = some ty
  get : ∀ x ty, G'.get? x = some ty ↔
    G.get? x = some ty ∨ ∃ item ∈ items, item.name? = some x ∧ item.ty? = some ty

theorem get?_bind_iff {G : Bindings Ty} {x y : String} {t u : Ty} (hx : isNew G x = true) :
    (G.bind x t).get? y = some u ↔ G.get? y = some u ∨ (y = x ∧ u = t) := by
  by_cases h : y = x
  · subst h
    have hnone : G.get? y = none := by
      rw [isNew, Bool.and_eq_true] at hx
      exact Option.isNone_iff_eq_none.mp hx.2
    simp [hnone, eq_comm]
  · simp [Bindings.get?_bind_of_ne _ _ h, h]

theorem declareAll_declared {G G' : Bindings Ty} {items : List Item}
    (h : declareAll G items = some G') : Declared G items G' := by
  induction items generalizing G with
  | nil =>
    cases h
    exact ⟨by simp, by simp, by simp, by simp⟩
  | cons item more ih =>
    rw [declareAll, Option.bind_eq_some_iff] at h
    obtain ⟨G₁, hitem, hmore⟩ := h
    have hd := ih hmore
    cases hname : item.name? with
    | none =>
      rw [declare_of_none hname] at hitem
      cases hitem
      refine ⟨?_, ?_, ?_, ?_⟩
      · simpa [List.filterMap_cons, hname] using hd.distinct
      · simpa [List.filterMap_cons, hname] using hd.fresh
      · exact List.forall_mem_cons.mpr ⟨by simp [hname], hd.typed⟩
      · intro y u
        rw [hd.get]
        simp [hname]
    | some x =>
      rw [declare_of_some hname] at hitem
      obtain ⟨hnew, hitem⟩ := Option.ite_none_right_eq_some.mp hitem
      obtain ⟨ty, hty, rfl⟩ := Option.map_eq_some_iff.mp hitem
      have hfresh : ∀ y ∈ more.filterMap Item.name?, y ≠ x ∧ isNew G y = true :=
        fun y hy => isNew_bind.mp (hd.fresh y hy)
      refine ⟨?_, ?_, ?_, ?_⟩
      · rw [List.filterMap_cons_some hname, List.nodup_cons]
        exact ⟨fun hx => (hfresh x hx).1 rfl, hd.distinct⟩
      · rw [List.filterMap_cons_some hname]
        exact List.forall_mem_cons.mpr ⟨hnew, fun y hy => (hfresh y hy).2⟩
      · exact List.forall_mem_cons.mpr ⟨fun _ _ => ⟨ty, hty⟩, hd.typed⟩
      · intro y u
        rw [hd.get, get?_bind_iff hnew, or_assoc]
        simp [hname, hty, eq_comm]

theorem exists_declareAll {G : Bindings Ty} {items : List Item}
    (hdistinct : (items.filterMap Item.name?).Nodup)
    (hfresh : ∀ x ∈ items.filterMap Item.name?, isNew G x = true)
    (htyped : ∀ item ∈ items, ∀ x, item.name? = some x → ∃ ty, item.ty? = some ty) :
    ∃ G', declareAll G items = some G' := by
  induction items generalizing G with
  | nil => exact ⟨G, rfl⟩
  | cons item more ih =>
    obtain ⟨htype, hmore⟩ := List.forall_mem_cons.mp htyped
    cases hname : item.name? with
    | none =>
      rw [List.filterMap_cons_none hname] at hdistinct hfresh
      obtain ⟨G', hG'⟩ := ih hdistinct hfresh hmore
      refine ⟨G', ?_⟩
      rw [declareAll, declare_of_none hname]
      exact hG'
    | some x =>
      rw [List.filterMap_cons_some hname] at hdistinct hfresh
      obtain ⟨hx, hnodup⟩ := List.nodup_cons.mp hdistinct
      obtain ⟨hnew, hrest⟩ := List.forall_mem_cons.mp hfresh
      obtain ⟨ty, hty⟩ := htype x hname
      have hlater : ∀ y ∈ more.filterMap Item.name?, isNew (G.bind x ty) y = true := by
        intro y hy
        refine isNew_bind.mpr ⟨?_, hrest y hy⟩
        rintro rfl
        exact hx hy
      obtain ⟨G', hG'⟩ := ih hnodup hlater hmore
      refine ⟨G', ?_⟩
      rw [declareAll, declare_of_some hname, if_pos hnew, hty]
      exact hG'

end Lexical

namespace Item

/-- Parameters that all have a type written for them. -/
theorem parameterTypes_eq_ok {name : String} {start : Position} {ps : List Parameter}
    {tys : List Ty} : parameterTypes name start ps = .ok tys ↔
      List.Forall₂ (fun p ty => ∃ t, p.type? = some t ∧ t.toTy = .ok ty) ps tys := by
  induction ps generalizing tys with
  | nil => simp [parameterTypes, eq_comm]
  | cons p more ih =>
    rw [parameterTypes, List.forall₂_cons_left_iff]
    cases hp : p.type? with
    | none => simp
    | some t =>
      simp only [except_bind_eq_ok, ih, pure, Except.pure, Except.ok.injEq, Option.some.injEq,
        exists_eq_left']
      constructor
      · rintro ⟨ty, hty, tys', htys, rfl⟩
        exact ⟨ty, tys', hty, htys, rfl⟩
      · rintro ⟨ty, tys', hty, htys, rfl⟩
        exact ⟨ty, hty, tys', htys, rfl⟩

theorem signature_eq_ok {name : String} {literal : Procedure Expr} {start : Position} {ty : Ty} :
    signature name literal start = .ok ty ↔ ∃ tys t result,
      List.Forall₂ (fun p ty => ∃ t, p.type? = some t ∧ t.toTy = .ok ty) literal.parameters tys ∧
      literal.result? = some t ∧ t.toTy = .ok result ∧ ty = .proc tys result := by
  rw [signature, except_bind_eq_ok]
  simp only [parameterTypes_eq_ok]
  cases literal.result? with
  | none => simp
  | some t =>
    simp only [except_bind_eq_ok, pure, Except.pure, Except.ok.injEq, Option.some.injEq]
    constructor
    · rintro ⟨tys, htys, result, hr, rfl⟩
      exact ⟨tys, t, result, htys, rfl, hr, rfl⟩
    · rintro ⟨tys, _, result, htys, rfl, hr, rfl⟩
      exact ⟨tys, htys, result, hr, rfl⟩

theorem settled_of_ty? {item : Item} {ty : Ty} (h : item.ty? = some ty) : ty.settled = true := by
  cases item with
  | procedure name literal span =>
    rw [ty?, toOption_eq_some, signature_eq_ok] at h
    obtain ⟨tys, t, result, htys, -, hr, rfl⟩ := h
    refine Ty.settled_proc.mpr ⟨?_, TypeExpr.settled_of_toTy hr⟩
    intro u hu
    obtain ⟨p, -, t', -, ht'⟩ := exists_mem_of_forall₂ htys.flip hu
    exact TypeExpr.settled_of_toTy ht'
  | constant name type? value span =>
    obtain ⟨t, -, ht⟩ := Option.bind_eq_some_iff.mp h
    exact TypeExpr.settled_of_toTy (toOption_eq_some.mp ht)
  | mutable name type? value span => cases h
  | entry body span => cases h

end Item

namespace Lexical

theorem Declared.settled {items : List Item} {G : Bindings Ty} (h : Declared [] items G) :
    ∀ x t, G.get? x = some t → t.settled = true := by
  intro x t hx
  rcases (h.get x t).mp hx with hx | ⟨item, -, -, ht⟩
  · cases hx
  · exact Item.settled_of_ty? ht

/-- What a constant is initialised with is checked without anything around it. -/
theorem fits_of_constantValue {e : Expr} {x : Typed.Expr} (h : constantValue? e = some x)
    (G : Bindings Ty) (fs : List Frame) (p : Place) : Fits G fs x p p := by
  unfold constantValue? at h
  split at h
  · cases h
    exact ⟨rfl, rfl, rfl⟩
  · cases h
    exact ⟨rfl, rfl, rfl⟩
  · cases h
    exact ⟨rfl, rfl, rfl, rfl⟩
  · split at h
    · cases h
      exact ⟨rfl, rfl, rfl, rfl, rfl, rfl⟩
    · cases h
  · cases h

/-- A typed item as a check leaves it, with scopes from `n` on and below `n'`. -/
def ItemFits (G : Bindings Ty) : Typed.Item → Nat → Nat → Prop
  | .procedure _ P, n, n' => ProcedureFits G P n n'
  | .constant c, n, n' => n' = n ∧ c.ty = c.value.ty ∧ ∃ e, constantValue? e = some c.value
  | .entry P, n, n' => P.parameters = [] ∧ ProcedureFits G P n n'

def ItemsFit (G : Bindings Ty) : List Typed.Item → Nat → Nat → Prop
  | [], n, n' => n' = n
  | item :: more, n, n' => ∃ m, ItemFits G item n m ∧ ItemsFit G more m n'

theorem checkItem_fits {w : Outside} {n n' : Nat} {item : Item} {ti : Typed.Item}
    (h : checkItem w n item = some (ti, n'))
    (hg : ∀ x t, w.globals.get? x = some t → t.settled = true) : ItemFits w.globals ti n n' := by
  cases item with
  | procedure name literal span =>
    obtain ⟨⟨P, m⟩, hP, hrest⟩ := Option.map_eq_some_iff.mp h
    cases hrest
    exact checkProcedure_fits hP hg
  | constant name type? value span =>
    obtain ⟨x, hx, h⟩ := Option.bind_eq_some_iff.mp h
    obtain ⟨ty, -, h⟩ := Option.bind_eq_some_iff.mp h
    obtain ⟨hty, h⟩ := Option.ite_none_right_eq_some.mp h
    cases h
    exact ⟨rfl, eq_of_beq hty, value, hx⟩
  | mutable name type? value span => cases h
  | entry body span =>
    obtain ⟨⟨te, a⟩, he, hrest⟩ := Option.map_eq_some_iff.mp h
    cases hrest
    have hready : Ready False w ⟨[.ofParameters n []], 0, n + 1⟩ := .ofParameters (by simp) hg
    exact ⟨rfl, Nat.le_refl _, by simp, by simp, rfl, check_fits he hready⟩

theorem checkItems_fits {w : Outside} {n n' : Nat} {items : List Item} {tis : List Typed.Item}
    (h : checkItems w n items = some (tis, n'))
    (hg : ∀ x t, w.globals.get? x = some t → t.settled = true) :
    ItemsFit w.globals tis n n' := by
  induction items generalizing n tis with
  | nil =>
    cases h
    rfl
  | cons item more ih =>
    obtain ⟨⟨ti, m⟩, hti, h⟩ := Option.bind_eq_some_iff.mp h
    obtain ⟨⟨rest, k⟩, hrest, h⟩ := Option.map_eq_some_iff.mp h
    cases h
    exact ⟨m, checkItem_fits hti hg, ih hrest⟩

end Lexical

end RootedC
