import RootedC.Proofs.Lowering.Checked
import RootedC.Proofs.Typing.Elaboration

/-!
The types of top-level names before and after the check. What is collected from the text, and what
all uses of a name are checked against, is the type of the procedure or constant that the check of
the item itself gives.
-/
namespace RootedC

/-- The type of the name that an item declares. -/
def Typed.Item.ty? : Typed.Item → Option Ty
  | .procedure _ P => some P.ty
  | .constant c => some c.ty
  | .entry _ => none

theorem Typed.Module.mem_procedures_of_item {items : List Typed.Item} {x : String}
    {P : Typed.Procedure Typed.Expr} (h : .procedure x P ∈ items) :
    (x, P) ∈ (Typed.Module.ofItems items).procedures :=
  List.mem_filterMap.mpr ⟨_, h, rfl⟩

theorem Typed.Module.mem_constants_of_item {items : List Typed.Item} {c : Typed.Constant}
    (h : .constant c ∈ items) : c ∈ (Typed.Module.ofItems items).constants :=
  List.mem_filterMap.mpr ⟨_, h, rfl⟩

theorem Typed.Module.constants_ofItems (items : List Typed.Item) :
    ((Typed.Module.ofItems items).constants.map (·.name)).Sublist
      (items.filterMap Typed.Item.name?) := by
  induction items with
  | nil => exact List.nil_sublist _
  | cons item more ih =>
    cases item with
    | procedure name P => exact ih.cons name
    | constant c => exact ih.cons_cons c.name
    | entry P => exact ih

namespace Lexical

theorem exists_lookup {β : Type} {ps : List (String × β)} {x : String} {b : β} (h : (x, b) ∈ ps) :
    ∃ b', ps.lookup x = some b' ∧ (x, b') ∈ ps := by
  cases hl : ps.lookup x with
  | none =>
    have hne := List.lookup_eq_none_iff.mp hl _ h
    simp at hne
  | some b' =>
    obtain ⟨before, after, heq, -⟩ := List.lookup_eq_some_iff.mp hl
    exact ⟨b', rfl, by simp [heq]⟩

variable {w : Outside} {n n' : Nat} {G : Bindings Ty}

theorem checkProcedure_signature {name : String} {literal : Procedure Expr} {start : Position}
    {P : Typed.Procedure Typed.Expr} {ty : Ty} (h : checkProcedure w n literal = some (P, n'))
    (hs : Item.signature name literal start = .ok ty) : P.ty = ty := by
  obtain ⟨ps, result?, body, span⟩ := literal
  obtain ⟨tys, t, result, htys, hresult?, hresult, rfl⟩ := Item.signature_eq_ok.mp hs
  have hhas : List.Forall₂ Parameter.Has ps tys :=
    htys.imp fun p ty ⟨t, ht, hty⟩ => ⟨t, ht, TypeExpr.toTy_eq_ok.mp hty⟩
  have hsome := isSome_of_has hhas
  obtain ⟨-, tys', e, slots, fs, hhas', -, hr, rfl⟩ := (checkProcedure_written hsome).mp h
  have heq : tys' = tys := by
    have h₁ := (writtenTypes_eq_ok hsome).mpr hhas
    have h₂ := (writtenTypes_eq_ok hsome).mpr hhas'
    exact Except.ok.inj (h₂.symm.trans h₁)
  have hty : e.ty = result := by
    have he := TypeExpr.toTy_eq_ok.mpr (hr t hresult?)
    exact Except.ok.inj (he.symm.trans hresult)
  have hlen : tys.length ≤ (ps.map (·.name)).length := by
    exact Nat.le_of_eq (by rw [List.length_map, hhas.length_eq])
  rw [Typed.Procedure.ty, heq, hty, List.map_snd_zip hlen]

theorem checkItem_ty {item : Item} {ti : Typed.Item} {ty : Ty}
    (h : checkItem w n item = some (ti, n')) (hty : item.ty? = some ty) : ti.ty? = some ty := by
  cases item with
  | procedure name literal span =>
    obtain ⟨⟨P, m⟩, hP, hrest⟩ := Option.map_eq_some_iff.mp h
    cases hrest
    rw [Typed.Item.ty?, checkProcedure_signature hP (toOption_eq_some.mp hty)]
  | constant name type? value span =>
    obtain ⟨x, -, h⟩ := Option.bind_eq_some_iff.mp h
    obtain ⟨ty', hty', h⟩ := Option.bind_eq_some_iff.mp h
    obtain ⟨-, h⟩ := Option.ite_none_right_eq_some.mp h
    cases h
    rw [Typed.Item.ty?, ← hty, ← hty']
    rfl
  | mutable name type? value span => cases hty
  | entry body span => cases hty

theorem checkItems_tys {items : List Item} {tis : List Typed.Item}
    (h : checkItems w n items = some (tis, n')) :
    List.Forall₂ (fun item ti => ti.name? = item.name? ∧
      ∀ ty, item.ty? = some ty → ti.ty? = some ty) items tis := by
  induction items generalizing n tis with
  | nil =>
    cases h
    exact .nil
  | cons item more ih =>
    obtain ⟨⟨ti, m⟩, hti, h⟩ := Option.bind_eq_some_iff.mp h
    obtain ⟨⟨rest, k⟩, hrest, h⟩ := Option.map_eq_some_iff.mp h
    cases h
    exact .cons ⟨checkItem_name hti, fun _ => checkItem_ty hti⟩ (ih hrest)

/-- The types of the top-level names of a typed module. -/
structure Signatures (G : Bindings Ty) (m : Typed.Module) : Prop where
  procedures : ∀ p ∈ m.procedures, G.get? p.1 = some p.2.ty
  constants : ∀ c ∈ m.constants, G.get? c.name = some c.ty
  distinct : (m.constants.map (·.name)).Nodup
  complete : ∀ x ty, G.get? x = some ty →
    (∃ P, m.procedures.lookup x = some P ∧ P.ty = ty) ∨
      ∃ c, m.constants.find? (·.name = x) = some c ∧ c.ty = ty

/-- The typed items are declared with the types that were collected. -/
theorem get?_of_typedItem {source : List Item} {items : List Typed.Item}
    (hG : declareAll [] source = some G) (hitems : checkItems w n source = some (items, n'))
    {ti : Typed.Item} (hti : ti ∈ items) {x : String} (hx : ti.name? = some x) :
    ∃ ty, ti.ty? = some ty ∧ G.get? x = some ty := by
  have hd := declareAll_declared hG
  obtain ⟨item, hitem, hname, hty⟩ := exists_mem_of_forall₂ (checkItems_tys hitems).flip hti
  rw [hname] at hx
  obtain ⟨ty, hty'⟩ := hd.typed item hitem x hx
  exact ⟨ty, hty ty hty', (hd.get x ty).mpr (.inr ⟨item, hitem, hx, hty'⟩)⟩

theorem signatures_ofItems {source : List Item} {items : List Typed.Item}
    (hG : declareAll [] source = some G) (hitems : checkItems w n source = some (items, n')) :
    Signatures G (.ofItems items) := by
  have hprocedures : ∀ p ∈ (Typed.Module.ofItems items).procedures,
      G.get? p.1 = some p.2.ty := by
    intro p hp
    have hmem := Typed.Module.mem_procedures_ofItems hp
    obtain ⟨ty, hty, hget⟩ := get?_of_typedItem hG hitems hmem rfl
    cases hty
    exact hget
  have hconstants : ∀ c ∈ (Typed.Module.ofItems items).constants, G.get? c.name = some c.ty := by
    intro c hc
    have hmem := Typed.Module.mem_constants_ofItems hc
    obtain ⟨ty, hty, hget⟩ := get?_of_typedItem hG hitems hmem rfl
    cases hty
    exact hget
  have hdistinct : ((Typed.Module.ofItems items).constants.map (·.name)).Nodup := by
    have hs := Typed.Module.constants_ofItems items
    rw [checkItems_names hitems] at hs
    exact (declareAll_declared hG).distinct.sublist hs
  refine ⟨hprocedures, hconstants, hdistinct, fun x ty hx => ?_⟩
  rcases ((declareAll_declared hG).get x ty).mp hx with hx' | ⟨item, hitem, hname, hty⟩
  · cases hx'
  · obtain ⟨ti, hti, hti_name, hti_ty⟩ := exists_mem_of_forall₂ (checkItems_tys hitems) hitem
    rw [hname] at hti_name
    cases ti with
    | procedure y P =>
      cases hti_name
      have hmem := Typed.Module.mem_procedures_of_item hti
      obtain ⟨Q, hQ, hQmem⟩ := exists_lookup hmem
      exact .inl ⟨Q, hQ, Option.some.inj ((hprocedures _ hQmem).symm.trans hx)⟩
    | constant c =>
      cases hti_name
      have hmem := Typed.Module.mem_constants_of_item hti
      have hsome : ((Typed.Module.ofItems items).constants.find? (·.name = c.name)).isSome = true :=
        List.find?_isSome.mpr ⟨c, hmem, by simp⟩
      obtain ⟨d, hd⟩ := Option.isSome_iff_exists.mp hsome
      have hname : d.name = c.name := by simpa using List.find?_some hd
      have hget := hconstants d (List.mem_of_find?_eq_some hd)
      rw [hname] at hget
      exact .inr ⟨d, hd, Option.some.inj (hget.symm.trans hx)⟩
    | entry P => cases hti_name

/-- A checked module with the types of its top-level names. -/
theorem signatures_of_check {source : Module} {tm : Typed.Module} (h : source.check = .ok tm) :
    ∃ G, declareAll [] source.items = some G ∧ ModuleFits G tm ∧ Signatures G tm := by
  obtain ⟨G, items, n, hG, hitems, rfl⟩ := module_check_eq_ok.mp h
  exact ⟨G, hG, moduleFits_ofItems hG hitems, signatures_ofItems hG hitems⟩

end Lexical

end RootedC
