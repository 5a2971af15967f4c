import Mathlib.Data.List.Flatten
import Mathlib.Data.List.Nodup
import Mathlib.Data.List.Perm.Basic
import RootedC.Proofs.Lowering.Implements
import RootedC.Proofs.Lowering.Literals
import RootedC.Proofs.Typing.Globals

/-!
Modules that were checked. All their procedures, with names and without, are checked procedures, no
two of them have the same name in the code, and constants have literals for values.
-/
namespace RootedC

namespace Typed

/-- The name that an item declares. -/
def Item.name? : Item → Option String
  | .procedure name _ => some name
  | .constant c => some c.name
  | .entry _ => none

/-- The literals of the code of an item. -/
def Item.literals : Item → List (Procedure Expr)
  | .procedure _ P => P.body.literals
  | .constant _ => []
  | .entry P => P.body.literals

/-- The literals of a module, those of the entry last. -/
def Module.literals (m : Module) : List (Procedure Expr) :=
  (m.procedures.flatMap fun p => p.2.body.literals) ++
    m.entryPoint?.toList.flatMap fun P => P.body.literals

theorem Module.units_perm (m : Module) :
    m.units.Perm (m.literals.map (fun P => (Code.Name.literal P.scope, P)) ++
      m.procedures.map fun p => (Code.Name.user p.1, p.2)) := by
  have hprocs := List.flatMap_append_perm m.procedures
    (fun p => p.2.body.literals.map fun P => (Code.Name.literal P.scope, P))
    (fun p => [(Code.Name.user p.1, p.2)])
  rw [← List.map_eq_flatMap] at hprocs
  rw [units, literals, List.map_append, List.map_flatMap, List.map_flatMap]
  refine (hprocs.symm.append_right _).trans ?_
  rw [List.append_assoc, List.append_assoc]
  exact List.perm_append_comm.append_left _

theorem Module.user_mem_units {m : Module} {p : String × Procedure Expr} (h : p ∈ m.procedures) :
    (.user p.1, p.2) ∈ m.units :=
  m.units_perm.mem_iff.mpr (List.mem_append_right _ (List.mem_map.mpr ⟨p, h, rfl⟩))

theorem Module.literal_mem_units {m : Module} {P : Procedure Expr} (h : P ∈ m.literals) :
    (.literal P.scope, P) ∈ m.units :=
  m.units_perm.mem_iff.mpr (List.mem_append_left _ (List.mem_map.mpr ⟨P, h, rfl⟩))

theorem Module.nodup_units {m : Module} (hl : (m.literals.map (·.scope)).Nodup)
    (hp : (m.procedures.map (·.1)).Nodup) : (m.units.map (·.1)).Nodup := by
  have hperm := m.units_perm.map (·.1)
  rw [List.map_append, List.map_map, List.map_map] at hperm
  have hliterals : ((m.literals.map (·.scope)).map Code.Name.literal).Nodup :=
    List.Nodup.map (fun _ _ h => Code.Name.literal.inj h) hl
  have husers : ((m.procedures.map (·.1)).map Code.Name.user).Nodup :=
    List.Nodup.map (fun _ _ h => Code.Name.user.inj h) hp
  rw [List.map_map] at hliterals husers
  rw [hperm.nodup_iff, List.nodup_append]
  refine ⟨hliterals, husers, ?_⟩
  intro a ha b hb hab
  obtain ⟨P, -, rfl⟩ := List.mem_map.mp ha
  obtain ⟨p, -, rfl⟩ := List.mem_map.mp hb
  cases hab

/-- The procedures of all entries, of which only the last one is part of the module. -/
def entries (items : List Item) : List (Procedure Expr) :=
  items.filterMap fun
    | .entry literal => some literal
    | _ => none

theorem Module.mem_procedures_ofItems {items : List Item} {p : String × Procedure Expr}
    (h : p ∈ (Module.ofItems items).procedures) : .procedure p.1 p.2 ∈ items := by
  obtain ⟨item, hi, hp⟩ := List.mem_filterMap.mp h
  cases item with
  | procedure name P =>
    cases hp
    exact hi
  | _ => cases hp

theorem Module.mem_constants_ofItems {items : List Item} {c : Constant}
    (h : c ∈ (Module.ofItems items).constants) : .constant c ∈ items := by
  obtain ⟨item, hi, hc⟩ := List.mem_filterMap.mp h
  cases item with
  | constant c' =>
    cases hc
    exact hi
  | _ => cases hc

theorem Module.entryPoint?_ofItems (items : List Item) :
    (Module.ofItems items).entryPoint?.toList.Sublist (entries items) := by
  have h : (Module.ofItems items).entryPoint? = (entries items).getLast? := rfl
  rw [h]
  cases hl : (entries items).getLast? with
  | none => exact List.nil_sublist _
  | some P =>
    obtain ⟨before, hb⟩ := List.getLast?_eq_some_iff.mp hl
    rw [hb]
    exact List.sublist_append_right _ _

theorem mem_entries {items : List Item} {P : Procedure Expr} (h : P ∈ entries items) :
    .entry P ∈ items := by
  obtain ⟨item, hi, hP⟩ := List.mem_filterMap.mp h
  cases item with
  | entry P' =>
    cases hP
    exact hi
  | _ => cases hP

theorem Module.literals_perm (items : List Item) :
    (((Module.ofItems items).procedures.flatMap fun p => p.2.body.literals) ++
      (entries items).flatMap fun P => P.body.literals).Perm (items.flatMap Item.literals) := by
  induction items with
  | nil => exact .nil
  | cons item more ih =>
    cases item with
    | procedure name P => simpa [ofItems, entries, Item.literals] using ih.append_left _
    | constant c => simpa [ofItems, entries, Item.literals] using ih
    | entry P =>
      have hswap := (List.perm_append_comm_assoc
        ((Module.ofItems more).procedures.flatMap fun p => p.2.body.literals) P.body.literals
        ((entries more).flatMap fun P => P.body.literals)).trans (ih.append_left _)
      simpa [ofItems, entries, Item.literals] using hswap

theorem Module.names_ofItems (items : List Item) :
    ((Module.ofItems items).procedures.map (·.1)).Sublist (items.filterMap Item.name?) := by
  induction items with
  | nil => exact List.nil_sublist _
  | cons item more ih =>
    cases item with
    | procedure name P => exact ih.cons_cons name
    | constant c => exact ih.cons c.name
    | entry P => exact ih

end Typed

namespace Lexical

open Typed

variable {G : Bindings Ty} {n n' : Nat}

theorem Within.sublist {Ps Qs : List (Typed.Procedure Typed.Expr)} (h : Within G n n' Qs)
    (hs : Ps.Sublist Qs) : Within G n n' Ps :=
  ⟨h.le, fun P hP => h.bounds P (hs.subset hP), h.nodup.sublist (hs.map _),
    fun P hP => h.fits P (hs.subset hP)⟩

theorem ItemFits.within {item : Typed.Item} (h : ItemFits G item n n') :
    Within G n n' item.literals := by
  cases item with
  | procedure name P => exact (Fits.within h.body).widen (Nat.le_succ_of_le h.le_scope)
  | constant c => exact .nil (Nat.le_of_eq h.1.symm)
  | entry P => exact (Fits.within h.2.body).widen (Nat.le_succ_of_le h.2.le_scope)

theorem ItemsFit.within {items : List Typed.Item} (h : ItemsFit G items n n') :
    Within G n n' (items.flatMap Typed.Item.literals) := by
  induction items generalizing n with
  | nil => exact .nil (Nat.le_of_eq h.symm)
  | cons item more ih =>
    obtain ⟨m, hitem, hmore⟩ := h
    exact hitem.within.append (ih hmore)

theorem ItemsFit.mem {items : List Typed.Item} (h : ItemsFit G items n n') {item : Typed.Item}
    (hi : item ∈ items) : ∃ m m', ItemFits G item m m' := by
  induction items generalizing n with
  | nil => cases hi
  | cons first more ih =>
    obtain ⟨m, hfirst, hmore⟩ := h
    rcases List.mem_cons.mp hi with rfl | hi
    · exact ⟨n, m, hfirst⟩
    · exact ih hmore hi

theorem checkItem_name {w : Outside} {item : Item} {ti : Typed.Item}
    (h : checkItem w n item = some (ti, n')) : ti.name? = item.name? := by
  cases item with
  | procedure name literal span =>
    obtain ⟨_, -, h⟩ := Option.map_eq_some_iff.mp h
    cases h
    rfl
  | constant name type? value span =>
    obtain ⟨x, -, h⟩ := Option.bind_eq_some_iff.mp h
    obtain ⟨ty, -, h⟩ := Option.bind_eq_some_iff.mp h
    obtain ⟨-, h⟩ := Option.ite_none_right_eq_some.mp h
    cases h
    rfl
  | mutable name type? value span => cases h
  | entry body span =>
    obtain ⟨_, -, h⟩ := Option.map_eq_some_iff.mp h
    cases h
    rfl

theorem checkItems_names {w : Outside} {items : List Item} {tis : List Typed.Item}
    (h : checkItems w n items = some (tis, n')) :
    tis.filterMap Typed.Item.name? = items.filterMap Item.name? := by
  induction items generalizing n tis with
  | nil =>
    cases h
    rfl
  | cons item more ih =>
    obtain ⟨⟨ti, m⟩, hti, h⟩ := Option.bind_eq_some_iff.mp h
    obtain ⟨⟨rest, k⟩, hrest, h⟩ := Option.map_eq_some_iff.mp h
    cases h
    rw [List.filterMap_cons, List.filterMap_cons, checkItem_name hti, ih hrest]

/-- A checked module, given the types of its top-level names. -/
structure ModuleFits (G : Bindings Ty) (m : Typed.Module) : Prop where
  units : ∀ u ∈ m.units, ∃ n n', ProcedureFits G u.2 n n'
  names : (m.units.map (·.1)).Nodup
  procedures : (m.procedures.map (·.1)).Nodup
  constants : ∀ c ∈ m.constants, c.ty = c.value.ty ∧ ∃ e, constantValue? e = some c.value
  entryPoint : ∀ P ∈ m.entryPoint?, P.parameters = [] ∧ ∃ n n', ProcedureFits G P n n'

theorem ModuleFits.literals_constants {m : Typed.Module} (h : ModuleFits G m) :
    ∀ c ∈ m.constants, c.value.literals = [] := by
  intro c hc
  obtain ⟨-, e, he⟩ := h.constants c hc
  have hwithin := (fits_of_constantValue he G [] ⟨0, 0⟩).within
  refine List.eq_nil_iff_forall_not_mem.mpr fun P hP => ?_
  exact Nat.not_lt_zero _ (hwithin.bounds P hP).2

theorem moduleFits_ofItems {source : List RootedC.Item} {items : List Typed.Item}
    (hG : declareAll [] source = some G)
    (hitems : checkItems (.ofGlobals G) 1 source = some (items, n)) :
    ModuleFits G (.ofItems items) := by
  have hd := declareAll_declared hG
  have hfits : ItemsFit G items 1 n := checkItems_fits hitems hd.settled
  have hnames : ((Module.ofItems items).procedures.map (·.1)).Nodup := by
    have hs := Module.names_ofItems items
    rw [checkItems_names hitems] at hs
    exact hd.distinct.sublist hs
  have hwithin : Within G 1 n (Module.ofItems items).literals :=
    (hfits.within.perm (Module.literals_perm items).symm).sublist
      ((List.Sublist.refl _).append ((Module.entryPoint?_ofItems items).flatMap _))
  refine ⟨?_, ?_, hnames, ?_, ?_⟩
  · intro u hu
    rcases List.mem_append.mp ((Module.units_perm _).mem_iff.mp hu) with hu | hu
    · obtain ⟨P, hP, rfl⟩ := List.mem_map.mp hu
      exact hwithin.fits P hP
    · obtain ⟨p, hp, rfl⟩ := List.mem_map.mp hu
      exact hfits.mem (Module.mem_procedures_ofItems hp)
  · exact Module.nodup_units hwithin.nodup hnames
  · intro c hc
    obtain ⟨_, _, hfit⟩ := hfits.mem (Module.mem_constants_ofItems hc)
    exact hfit.2
  · intro P hP
    have hmem := (Module.entryPoint?_ofItems items).subset (Option.mem_toList.mpr hP)
    obtain ⟨m, m', hfit⟩ := hfits.mem (mem_entries hmem)
    exact ⟨hfit.1, m, m', hfit.2⟩

theorem moduleFits_of_check {m : RootedC.Module} {tm : Typed.Module} (h : m.check = .ok tm) :
    ∃ G, ModuleFits G tm := by
  obtain ⟨G, items, n, hG, hitems, rfl⟩ := module_check_eq_ok.mp h
  exact ⟨G, moduleFits_ofItems hG hitems⟩

end Lexical

namespace Code.Module.Implements

variable {G : Bindings Ty} {tm : Typed.Module} {m : Code.Module}

/-- A procedure of the code is that of a checked procedure. -/
theorem exists_procedure (hi : m.Implements tm) (hf : Lexical.ModuleFits G tm)
    {q : Code.Procedure} (hq : q ∈ m.procedures) :
    ∃ name P n n', q.Implements m name P ∧ Lexical.ProcedureFits G P n n' := by
  obtain ⟨u, hu, himpl⟩ := exists_mem_of_forall₂ hi.units.flip hq
  obtain ⟨n, n', hP⟩ := hf.units u hu
  exact ⟨u.1, u.2, n, n', himpl, hP⟩

/-- The entry of the code is that of a checked entry. -/
theorem exists_entry (hi : m.Implements tm) (hf : Lexical.ModuleFits G tm) {e : Code.Entry}
    (he : e ∈ m.entryPoint?) :
    ∃ P n n', e.Implements m P ∧ P.parameters = [] ∧ Lexical.ProcedureFits G P n n' := by
  have hentry := hi.entryPoint?
  rw [Option.mem_def.mp he] at hentry
  cases hP : tm.entryPoint? with
  | none =>
    rw [hP] at hentry
    cases hentry
  | some P =>
    rw [hP] at hentry
    cases hentry with
    | some himpl =>
      obtain ⟨hps, n, n', hfits⟩ := hf.entryPoint P hP
      exact ⟨P, n, n', himpl, hps, hfits⟩

end Code.Module.Implements

end RootedC
