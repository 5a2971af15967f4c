import RootedC.Proofs.Lowering.Meaning

/-!
The prototypes of a module of code are those of its procedures, each once, although they are made
in another order: those of named procedures before all bodies, those of literals before their own.
-/
namespace RootedC

namespace Lower

open Typed.Expr

theorem prototypes_module {ps : List (String × Typed.Procedure Typed.Expr)}
    {qs : List Code.Prototype} {b b' : Builder} (h : prototypes ps b = .ok qs b') :
    b' = { b with module := { b.module with prototypes := b.module.prototypes ++ qs } } := by
  induction ps generalizing qs b with
  | nil =>
    obtain ⟨rfl, rfl⟩ := pure_eq_ok.mp h
    simp
  | cons p more ih =>
    obtain ⟨name, P⟩ := p
    rw [prototypes, bind_eq_ok] at h
    obtain ⟨q, b₁, hq, h⟩ := h
    obtain ⟨rfl, -⟩ := prototype_eq_ok hq
    obtain ⟨_, b₂, ha, hrest⟩ := bind_eq_ok.mp h
    rw [addPrototype_eq_ok] at ha
    subst ha
    obtain ⟨rest, b₃, hm, h⟩ := bind_eq_ok.mp hrest
    obtain ⟨rfl, rfl⟩ := pure_eq_ok.mp h
    simpa using ih hm

theorem constants_completes {cs : List Typed.Constant} {b b' : Builder} {u : Unit}
    (h : constants cs b = .ok u b') : b.module.Completes b'.module [] := by
  induction cs generalizing b with
  | nil =>
    obtain ⟨-, rfl⟩ := pure_eq_ok.mp h
    exact .of_eq rfl rfl
  | cons c more ih =>
    rw [constants, bind_eq_ok] at h
    obtain ⟨_, b₁, hone, h⟩ := h
    obtain ⟨x, b₂, ty, hx, -, rfl⟩ := constant_eq_ok hone
    have hvalue := (lower_emits hx).prototypes
    have hmore := ih h
    exact hvalue.trans hmore

theorem procedures_completes {ps : List (Code.Prototype × Typed.Procedure Typed.Expr)}
    {b b' : Builder} {u : Unit} (h : procedures ps b = .ok u b') :
    b.module.Completes b'.module (ps.map (·.1)) := by
  induction ps generalizing b with
  | nil =>
    obtain ⟨-, rfl⟩ := pure_eq_ok.mp h
    exact .of_eq rfl rfl
  | cons p more ih =>
    rw [procedures, bind_eq_ok] at h
    obtain ⟨_, b₁, hone, h⟩ := h
    obtain ⟨x, inner, hx, rfl⟩ := procedure_eq_ok hone
    have hbody := (lower_emits hx).prototypes
    have hone := hbody.add_procedure
      ⟨p.1, p.2.scope, prologue p.2.rootCount ++ x.code ++ [Code.Instr.ret x.value]⟩
    have hmore := ih h
    exact hone.trans hmore

end Lower

/-- Prototypes and procedures correspond to each other. -/
theorem Typed.Module.prototypes_perm {tm : Typed.Module} {m : Code.Module} (h : tm.lower = .ok m) :
    m.prototypes.Perm (m.procedures.map (·.prototype)) := by
  obtain ⟨ps, b₁, b₂, b₃, b, hps, hcs, hprocs, hnone, hsome, rfl⟩ := lower_eq_ok h
  have hlen : ps.length = (tm.procedures.map (·.2)).length := by
    rw [List.length_map]
    exact (Lower.prototypes_eq_ok hps).1.length_eq
  have hstart := Lower.prototypes_module hps
  have hbodies := (Lower.constants_completes hcs).trans (Lower.procedures_completes hprocs)
  rw [List.map_fst_zip (Nat.le_of_eq hlen)] at hbodies
  have hentry : b₃.module.Completes b.module [] := by
    cases hP : tm.entryPoint? with
    | none =>
      rw [hnone hP]
      exact .of_eq rfl rfl
    | some P =>
      obtain ⟨x, inner, hx, rfl⟩ := Lower.entry_eq_ok (hsome P hP)
      exact (Expr.lower_emits hx).prototypes
  have hall := hbodies.trans hentry
  -- The prototypes of the named procedures are there from the start and stand on both sides.
  rw [hstart, List.nil_append, List.append_nil, Code.Module.Completes] at hall
  simp only [Builder.initial, Code.Module.empty, List.map_nil, List.append_nil,
    List.nil_append] at hall
  exact (List.perm_append_left_iff ps).mp (List.perm_append_comm.trans hall)

namespace Code.Module

variable {G : Bindings Ty} {tm : Typed.Module} {m : Code.Module}

theorem prototype_mem (hp : m.prototypes.Perm (m.procedures.map (·.prototype)))
    {q : Code.Procedure} (hq : q ∈ m.procedures) : q.prototype ∈ m.prototypes :=
  hp.mem_iff.mpr (List.mem_map.mpr ⟨q, hq, rfl⟩)

theorem Implements.exists_prototype (hi : m.Implements tm)
    (hp : m.prototypes.Perm (m.procedures.map (·.prototype)))
    {u : Code.Name × Typed.Procedure Typed.Expr} (hu : u ∈ tm.units) :
    ∃ p ∈ m.prototypes, p.Declares u.1 u.2 := by
  obtain ⟨q, hq, himpl⟩ := exists_mem_of_forall₂ hi.units hu
  cases himpl with
  | intro hdecl hb hx hm => exact ⟨_, prototype_mem hp hq, hdecl⟩

theorem Implements.prototype_names (hi : m.Implements tm)
    (hp : m.prototypes.Perm (m.procedures.map (·.prototype))) :
    (m.prototypes.map (·.name)).Perm (tm.units.map (·.1)) := by
  have hnames := hp.map (·.name)
  rw [List.map_map] at hnames
  rw [← hi.names]
  exact hnames

end Code.Module

end RootedC
