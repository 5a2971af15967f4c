import RootedC.Proofs.Lowering.Units

/-!
The code of a module. Its procedures are those of the typed module, one by one and in order, each
with the code of its body; so are its constants, and its entry is the code of the entry.
-/
namespace RootedC

/-- A module after some more procedures, each the code of a typed one. -/
structure Code.Module.Adds (m m' : Code.Module)
    (us : List (Code.Name × Typed.Procedure Typed.Expr)) : Prop where
  strings : m.strings <+: m'.strings
  procedures : ∃ qs, m'.procedures = m.procedures ++ qs ∧
    List.Forall₂ (fun u q => Code.Procedure.Implements m' u.1 u.2 q) us qs

namespace Code.Module.Adds

variable {m m' m'' : Code.Module} {us vs : List (Code.Name × Typed.Procedure Typed.Expr)}

theorem before (h : m.Adds m' us) : m.Before m' := by
  obtain ⟨qs, hq, -⟩ := h.procedures
  exact ⟨⟨qs, hq.symm⟩, h.strings⟩

theorem of_eq (hp : m'.procedures = m.procedures) (hs : m'.strings = m.strings) : m.Adds m' [] :=
  ⟨hs ▸ List.prefix_rfl, [], by simp [hp], .nil⟩

theorem trans (h : m.Adds m' us) (h' : m'.Adds m'' vs) : m.Adds m'' (us ++ vs) := by
  obtain ⟨qs, hq, hi⟩ := h.procedures
  obtain ⟨rs, hr, hj⟩ := h'.procedures
  refine ⟨h.strings.trans h'.strings, qs ++ rs, ?_, ?_⟩
  · rw [hr, hq, List.append_assoc]
  · exact List.rel_append (hi.imp fun _ _ hx => hx.mono h'.before) hj

end Code.Module.Adds

theorem Builder.Emits.adds {b b' : Builder} {Ps : List (Typed.Procedure Typed.Expr)}
    (h : b.Emits b' Ps) :
    b.module.Adds b'.module (Ps.map fun P => (.literal P.scope, P)) := by
  obtain ⟨qs, hq, hi⟩ := h.procedures
  exact ⟨h.strings, qs, hq, List.forall₂_map_left_iff.mpr hi⟩

/-- The code of a constant. -/
inductive Code.Constant.Implements (m : Code.Module) (c : Typed.Constant) : Code.Constant → Prop
  | intro {x : Lowered} {b b' : Builder} {ty : String} (hx : c.value.lower b = .ok x b')
    (hm : b'.module.Before m) (hty : c.ty.cType = .ok ty) : Implements m c ⟨c.name, ty, x.value⟩

theorem Code.Constant.Implements.mono {m m' : Code.Module} {c : Typed.Constant}
    {k : Code.Constant} (h : k.Implements m c) (hm : m.Before m') : k.Implements m' c := by
  cases h with
  | intro hx hb hty => exact .intro hx (hb.trans hm) hty

/-- The code of an entry. -/
inductive Code.Entry.Implements (m : Code.Module) (P : Typed.Procedure Typed.Expr) :
    Code.Entry → Prop
  | intro {x : Lowered} {b b' : Builder} (hb : b.procedure = P.scope)
    (hx : P.body.lower b = .ok x b') (hm : b'.module.Before m) :
    Implements m P ⟨P.scope, Lower.prologue P.rootCount ++ x.code⟩

/-- A module of code that implements a typed module: its units one by one, its constants and its
entry. -/
structure Code.Module.Implements (m : Code.Module) (tm : Typed.Module) : Prop where
  units : List.Forall₂ (fun u q => Code.Procedure.Implements m u.1 u.2 q) tm.units m.procedures
  constants : List.Forall₂ (fun c k => Code.Constant.Implements m c k) tm.constants m.constants
  entryPoint? : Option.Rel (fun P e => Code.Entry.Implements m P e) tm.entryPoint? m.entryPoint?

namespace Lower

open Typed.Expr

theorem prototypes_eq_ok {ps : List (String × Typed.Procedure Typed.Expr)}
    {qs : List Code.Prototype} {b b' : Builder} (h : prototypes ps b = .ok qs b') :
    List.Forall₂ (fun q (p : String × Typed.Procedure Typed.Expr) => q.Declares (.user p.1) p.2)
      qs ps ∧
    b'.module.procedures = b.module.procedures ∧ b'.module.strings = b.module.strings ∧
    b'.module.constants = b.module.constants ∧ b'.module.entryPoint? = b.module.entryPoint? := by
  induction ps generalizing qs b with
  | nil =>
    obtain ⟨rfl, rfl⟩ := pure_eq_ok.mp h
    exact ⟨.nil, rfl, rfl, rfl, rfl⟩
  | cons p more ih =>
    obtain ⟨name, P⟩ := p
    rw [prototypes, bind_eq_ok] at h
    obtain ⟨q, b₁, hq, h⟩ := h
    obtain ⟨rfl, hd⟩ := prototype_eq_ok hq
    obtain ⟨_, b₂, ha, hrest⟩ := bind_eq_ok.mp h
    rw [addPrototype_eq_ok] at ha
    subst ha
    obtain ⟨rest, b₃, hm, h⟩ := bind_eq_ok.mp hrest
    obtain ⟨rfl, rfl⟩ := pure_eq_ok.mp h
    obtain ⟨hrel, h₁, h₂, h₃, h₄⟩ := ih hm
    exact ⟨.cons hd hrel, h₁, h₂, h₃, h₄⟩

theorem constants_eq_ok {cs : List Typed.Constant} {b b' : Builder} {u : Unit}
    (h : constants cs b = .ok u b') (hl : ∀ c ∈ cs, c.value.literals = []) :
    b.module.Adds b'.module [] ∧ b'.module.entryPoint? = b.module.entryPoint? ∧
    ∃ ks, b'.module.constants = b.module.constants ++ ks ∧
      List.Forall₂ (fun c k => Code.Constant.Implements b'.module c k) cs ks := by
  induction cs generalizing b with
  | nil =>
    obtain ⟨rfl, rfl⟩ := pure_eq_ok.mp h
    exact ⟨.of_eq rfl rfl, rfl, [], by simp, .nil⟩
  | cons c more ih =>
    obtain ⟨hc, hmore⟩ := List.forall_mem_cons.mp hl
    rw [constants, bind_eq_ok] at h
    obtain ⟨_, b₁, hone, h⟩ := h
    obtain ⟨x, b₃, ty, hx, hty, rfl⟩ := constant_eq_ok hone
    have he := lower_emits hx
    rw [hc] at he
    obtain ⟨hadds, hentry, ks, hk, hrel⟩ := ih h hmore
    have hsame : b₃.module.Adds { b₃.module with
        constants := b₃.module.constants ++ [⟨c.name, ty, x.value⟩] } [] := .of_eq rfl rfl
    refine ⟨(he.adds.trans hsame).trans hadds, hentry.trans he.entryPoint?,
      ⟨c.name, ty, x.value⟩ :: ks, ?_, .cons ?_ hrel⟩
    · simp only [hk, he.constants, List.append_assoc, List.singleton_append]
    · exact .intro hx (hsame.before.trans hadds.before) hty

theorem procedures_eq_ok {ps : List (String × Typed.Procedure Typed.Expr)}
    {qs : List Code.Prototype} {b b' : Builder} {u : Unit}
    (h : procedures (qs.zip (ps.map (·.2))) b = .ok u b')
    (hq : List.Forall₂ (fun q (p : String × Typed.Procedure Typed.Expr) =>
      q.Declares (.user p.1) p.2) qs ps) :
    b.module.Adds b'.module (ps.flatMap fun p =>
      p.2.body.literals.map (fun P => (Code.Name.literal P.scope, P)) ++
        [(Code.Name.user p.1, p.2)]) ∧
    b'.module.constants = b.module.constants ∧ b'.module.entryPoint? = b.module.entryPoint? := by
  induction hq generalizing b with
  | nil =>
    obtain ⟨rfl, rfl⟩ := pure_eq_ok.mp h
    exact ⟨.of_eq rfl rfl, rfl, rfl⟩
  | @cons q p qs ps hd hrest ih =>
    rw [List.map_cons, List.zip_cons_cons, procedures, bind_eq_ok] at h
    obtain ⟨_, b₁, hone, h⟩ := h
    obtain ⟨x, inner, hx, rfl⟩ := procedure_eq_ok hone
    have he := lower_emits hx
    obtain ⟨hadds, hcs, hen⟩ := ih h
    have hone : inner.module.Adds { inner.module with procedures := inner.module.procedures ++
        [⟨q, p.2.scope, prologue p.2.rootCount ++ x.code ++ [Code.Instr.ret x.value]⟩] }
        [(.user p.1, p.2)] :=
      ⟨List.prefix_rfl, _, rfl, .cons (.intro hd rfl hx
        ⟨List.prefix_append _ _, List.prefix_rfl⟩) .nil⟩
    refine ⟨?_, hcs.trans he.constants, hen.trans he.entryPoint?⟩
    rw [List.flatMap_cons]
    exact (he.adds.trans hone).trans hadds

end Lower

theorem Typed.Module.implements_of_lower {tm : Typed.Module} {m : Code.Module}
    (h : tm.lower = .ok m) (hl : ∀ c ∈ tm.constants, c.value.literals = []) :
    m.Implements tm := by
  obtain ⟨ps, b₁, b₂, b₃, b, hps, hcs, hprocs, hnone, hsome, rfl⟩ := lower_eq_ok h
  obtain ⟨hq, hp₁, hs₁, hc₁, he₁⟩ := Lower.prototypes_eq_ok hps
  obtain ⟨hadds₂, he₂, ks, hk, hrel⟩ := Lower.constants_eq_ok hcs hl
  obtain ⟨hadds₃, hc₃, he₃⟩ := Lower.procedures_eq_ok hprocs hq
  have hadds : Builder.initial.module.Adds b₃.module (tm.procedures.flatMap fun p =>
      p.2.body.literals.map (fun P => (Code.Name.literal P.scope, P)) ++
        [(Code.Name.user p.1, p.2)]) :=
    ((Code.Module.Adds.of_eq hp₁ hs₁).trans hadds₂).trans hadds₃
  have hks : b₃.module.constants = ks := by
    rw [hc₃, hk, hc₁]
    rfl
  cases hentry : tm.entryPoint? with
  | none =>
    rw [hnone hentry]
    obtain ⟨qs, hqs, hunits⟩ := hadds.procedures
    refine ⟨?_, ?_, ?_⟩
    · rw [hqs]
      simpa [units, hentry, Builder.initial, Code.Module.empty] using hunits
    · rw [hks]
      exact hrel.imp fun _ _ hx => hx.mono hadds₃.before
    · rw [hentry, he₃, he₂, he₁]
      exact .none
  | some P =>
    obtain ⟨x, inner, hx, rfl⟩ := Lower.entry_eq_ok (hsome P hentry)
    have he := Expr.lower_emits hx
    have hsame : inner.module.Adds { inner.module with
        entryPoint? := some ⟨P.scope, Lower.prologue P.rootCount ++ x.code⟩ } [] := .of_eq rfl rfl
    obtain ⟨qs, hqs, hunits⟩ := ((hadds.trans he.adds).trans hsame).procedures
    refine ⟨?_, ?_, ?_⟩
    · rw [hqs]
      simpa [units, hentry, Builder.initial, Code.Module.empty] using hunits
    · rw [show inner.module.constants = ks from he.constants.trans hks]
      exact hrel.imp fun _ _ hx =>
        hx.mono (hadds₃.before.trans (he.before.trans hsame.before))
    · rw [hentry]
      exact .some (Code.Entry.Implements.intro rfl hx hsame.before)

end RootedC
