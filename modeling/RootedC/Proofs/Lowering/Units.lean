import Mathlib.Data.List.Forall2
import RootedC.Proofs.Lowering.Inversion

/-!
The procedures that lowering makes. Every literal of an expression becomes one procedure, after the
literals in its own body and in the order of the text; nothing that is in the module already is
changed.
-/
namespace RootedC

namespace Typed

mutual

/-- The literals of an expression, in the order in which they become procedures. -/
def Expr.literals : Expr → List (Procedure Expr)
  | .integer _ _ | .boolean _ _ | .text _ _ _ | .unit _ | .name _ _ _ _ => []
  | .unary _ _ operand => operand.literals
  | .binary _ _ left right => left.literals ++ right.literals
  | .call _ callee arguments => literalsOfAll arguments ++ literalsOfCallee callee
  | .branch _ condition thenArm elseArm =>
    condition.literals ++ thenArm.literals ++ elseArm.literals
  | .letIn _ _ declarations body => literalsOfDeclarations declarations ++ body.literals
  | .block _ body => literalsOfAll body

def literalsOfAll : List Expr → List (Procedure Expr)
  | [] => []
  | e :: more => e.literals ++ literalsOfAll more

def literalsOfDeclarations : List (String × Expr) → List (Procedure Expr)
  | [] => []
  | (_, value) :: more => value.literals ++ literalsOfDeclarations more

def literalsOfCallee : Callee Expr → List (Procedure Expr)
  | .builtin _ | .global _ => []
  | .literal ⟨scope, parameters, result, body, size, span⟩ =>
    body.literals ++ [⟨scope, parameters, result, body, size, span⟩]

end

theorem literalsOfCallee_literal (P : Procedure Expr) :
    literalsOfCallee (.literal P) = P.body.literals ++ [P] := by
  obtain ⟨scope, parameters, result, body, size, span⟩ := P
  rw [literalsOfCallee]

/-- All procedures of a module, with names and without, in the order of their code. -/
def Module.units (m : Module) : List (Code.Name × Procedure Expr) :=
  (m.procedures.flatMap fun p =>
    p.2.body.literals.map (fun P => (.literal P.scope, P)) ++ [(.user p.1, p.2)]) ++
  m.entryPoint?.toList.flatMap fun P => P.body.literals.map fun P => (.literal P.scope, P)

end Typed

namespace Code

/-- A later module has the strings and procedures of an earlier one at the same places. -/
structure Module.Before (m m' : Module) : Prop where
  procedures : m.procedures <+: m'.procedures
  strings : m.strings <+: m'.strings

namespace Module.Before

variable {m m' m'' : Module}

theorem refl (m : Module) : m.Before m := ⟨List.prefix_rfl, List.prefix_rfl⟩

theorem trans (h : m.Before m') (h' : m'.Before m'') : m.Before m'' :=
  ⟨h.procedures.trans h'.procedures, h.strings.trans h'.strings⟩

end Module.Before

/-- A later module has got procedures for the prototypes that it has got, and for some that were
there without. -/
def Module.Completes (m m' : Module) (ps : List Prototype) : Prop :=
  (m'.prototypes ++ m.procedures.map (·.prototype) ++ ps).Perm
    (m.prototypes ++ m'.procedures.map (·.prototype))

namespace Module.Completes

variable {m m' m'' : Module} {ps qs : List Prototype}

theorem of_eq (hp : m'.prototypes = m.prototypes) (hq : m'.procedures = m.procedures) :
    m.Completes m' [] := by
  rw [Completes, hp, hq, List.append_nil]

theorem trans (h : m.Completes m' ps) (h' : m'.Completes m'' qs) :
    m.Completes m'' (ps ++ qs) := by
  refine List.perm_iff_count.mpr fun p => ?_
  have hp := List.perm_iff_count.mp h p
  have hq := List.perm_iff_count.mp h' p
  simp only [List.count_append] at hp hq ⊢
  omega

theorem add_procedure (h : m.Completes m' ps) (q : Procedure) :
    m.Completes { m' with procedures := m'.procedures ++ [q] } (ps ++ [q.prototype]) := by
  rw [Completes, List.map_append, ← List.append_assoc, ← List.append_assoc]
  exact List.Perm.append_right [q.prototype] h

/-- A prototype and, after all that its body needs, the procedure. -/
theorem add_both {q : Procedure}
    (h : Completes { m with prototypes := m.prototypes ++ [q.prototype] } m' []) :
    m.Completes { m' with procedures := m'.procedures ++ [q] } [] := by
  refine List.perm_iff_count.mpr fun p => ?_
  have hp := List.perm_iff_count.mp h p
  simp only [List.map_append, List.map_cons, List.map_nil, List.count_append] at hp ⊢
  omega

end Module.Completes

/-- The prototype of a typed procedure under a name. -/
structure Prototype.Declares (p : Prototype) (name : Name) (P : Typed.Procedure Typed.Expr) :
    Prop where
  name : p.name = name
  parameters : List.Forall₂ (fun (q : Parameter) (r : String × Ty) =>
    q.scope = P.scope ∧ q.name = r.1 ∧ r.2.cType = .ok q.cType) p.parameters P.parameters
  result : P.result.cType = .ok p.resultType

/-- A procedure of a module that is the code of a typed procedure. -/
inductive Procedure.Implements (m : Module) (name : Name) (P : Typed.Procedure Typed.Expr) :
    Procedure → Prop
  | intro {p : Prototype} {x : Lowered} {b b' : Builder} (hp : p.Declares name P)
    (hb : b.procedure = P.scope) (hx : P.body.lower b = .ok x b') (hm : b'.module.Before m) :
    Implements m name P ⟨p, P.scope, Lower.prologue P.rootCount ++ x.code ++ [.ret x.value]⟩

theorem Procedure.Implements.mono {m m' : Module} {name : Name}
    {P : Typed.Procedure Typed.Expr} {q : Procedure} (h : q.Implements m name P)
    (hm : m.Before m') : q.Implements m' name P := by
  cases h with
  | intro hp hb hx hbefore => exact .intro hp hb hx (hbefore.trans hm)

end Code

/-- A builder after some literals have been lowered. -/
structure Builder.Emits (b b' : Builder) (Ps : List (Typed.Procedure Typed.Expr)) : Prop where
  procedure : b'.procedure = b.procedure
  temporaries : b.temporaries ≤ b'.temporaries
  constants : b'.module.constants = b.module.constants
  entryPoint? : b'.module.entryPoint? = b.module.entryPoint?
  strings : b.module.strings <+: b'.module.strings
  prototypes : b.module.Completes b'.module []
  procedures : ∃ qs, b'.module.procedures = b.module.procedures ++ qs ∧
    List.Forall₂ (fun P q => Code.Procedure.Implements b'.module (.literal P.scope) P q) Ps qs

namespace Builder.Emits

variable {b b' b'' : Builder} {Ps Qs : List (Typed.Procedure Typed.Expr)}

theorem before (h : b.Emits b' Ps) : b.module.Before b'.module := by
  obtain ⟨qs, hq, -⟩ := h.procedures
  exact ⟨⟨qs, hq.symm⟩, h.strings⟩

theorem refl (b : Builder) : b.Emits b [] :=
  ⟨rfl, Nat.le_refl _, rfl, rfl, List.prefix_rfl, .of_eq rfl rfl, [], by simp, .nil⟩

theorem trans (h : b.Emits b' Ps) (h' : b'.Emits b'' Qs) : b.Emits b'' (Ps ++ Qs) := by
  obtain ⟨qs, hq, hi⟩ := h.procedures
  obtain ⟨rs, hr, hj⟩ := h'.procedures
  refine ⟨h'.procedure.trans h.procedure, Nat.le_trans h.temporaries h'.temporaries,
    h'.constants.trans h.constants, h'.entryPoint?.trans h.entryPoint?,
    h.strings.trans h'.strings, h.prototypes.trans h'.prototypes, qs ++ rs, ?_, ?_⟩
  · rw [hr, hq, List.append_assoc]
  · exact List.rel_append (hi.imp fun _ _ hx => hx.mono h'.before) hj

theorem temporary (b : Builder) : b.Emits b.temporary.2 [] :=
  ⟨rfl, Nat.le_succ _, rfl, rfl, List.prefix_rfl, .of_eq rfl rfl, [], by simp [Builder.temporary],
    .nil⟩

theorem then_temporary (h : b.Emits b' Ps) : b.Emits b'.temporary.2 Ps := by
  simpa using h.trans (.temporary b')

end Builder.Emits

theorem Code.Module.strings_intern (m : Code.Module) (raw : String) (length : Nat) :
    m.strings <+: (m.intern raw length).2.strings := by
  unfold intern
  split
  · exact List.prefix_rfl
  · exact List.prefix_append _ _

theorem Code.Module.intern_eq (m : Code.Module) (raw : String) (length : Nat) :
    (m.intern raw length).2 = { m with strings := (m.intern raw length).2.strings } := by
  unfold intern
  split <;> rfl

theorem Builder.Emits.intern (b : Builder) (raw : String) (length : Nat) :
    b.Emits { b with module := (b.module.intern raw length).2 } [] := by
  rw [Code.Module.intern_eq]
  exact ⟨rfl, Nat.le_refl _, rfl, rfl, b.module.strings_intern raw length, .of_eq rfl rfl, [],
    by simp, .nil⟩

theorem Lower.parameters_eq_ok {scope : Nat} {position : Position} {ps : List (String × Ty)}
    {qs : List Code.Parameter} {b b' : Builder}
    (h : Lower.parameters scope position ps b = .ok qs b') :
    b' = b ∧ List.Forall₂ (fun (q : Code.Parameter) (r : String × Ty) =>
      q.scope = scope ∧ q.name = r.1 ∧ r.2.cType = .ok q.cType) qs ps := by
  induction ps generalizing qs b' with
  | nil =>
    obtain ⟨rfl, rfl⟩ := pure_eq_ok.mp h
    exact ⟨rfl, .nil⟩
  | cons p more ih =>
    obtain ⟨name, ty⟩ := p
    rw [Lower.parameters, bind_eq_ok] at h
    obtain ⟨c, b₁, hc, h⟩ := h
    obtain ⟨hty, rfl⟩ := Lower.cType_eq_ok.mp hc
    obtain ⟨rest, b₂, hm, hpure⟩ := bind_eq_ok.mp h
    obtain ⟨rfl, hrest⟩ := ih hm
    obtain ⟨rfl, rfl⟩ := pure_eq_ok.mp hpure
    exact ⟨rfl, .cons ⟨rfl, rfl, hty⟩ hrest⟩

theorem Lower.prototype_eq_ok {name : Code.Name} {P : Typed.Procedure Typed.Expr}
    {p : Code.Prototype} {b b' : Builder} (h : Lower.prototype name P b = .ok p b') :
    b' = b ∧ p.Declares name P := by
  rw [Lower.prototype, bind_eq_ok] at h
  obtain ⟨ps, b₁, hrun, h⟩ := h
  obtain ⟨rfl, hps⟩ := Lower.parameters_eq_ok hrun
  obtain ⟨c, b₂, hc, hrest⟩ := bind_eq_ok.mp h
  obtain ⟨hty, rfl⟩ := Lower.cType_eq_ok.mp hc
  obtain ⟨rfl, rfl⟩ := pure_eq_ok.mp hrest
  exact ⟨rfl, rfl, hps, hty⟩

namespace Typed.Expr

/-- A literal is emitted after those in its body. -/
theorem emits_literal {P : Procedure Expr} {b b' : Builder}
    {call : List Code.Operand → Code.Operand} (h : lowerCallee (.literal P) b = .ok call b')
    (hbody : ∀ x b₁ b₂, P.body.lower b₁ = .ok x b₂ → b₁.Emits b₂ P.body.literals) :
    b.Emits b' (P.body.literals ++ [P]) := by
  obtain ⟨p, b₁, x, b₂, hp, hx, rfl, -⟩ := lowerCallee_literal h
  obtain ⟨rfl, hdecl⟩ := Lower.prototype_eq_ok hp
  have hb := hbody _ _ _ hx
  obtain ⟨qs, hq, hi⟩ := hb.procedures
  refine ⟨rfl, hb.temporaries, hb.constants, hb.entryPoint?, hb.strings, .add_both hb.prototypes,
    qs ++ [⟨p, P.scope, Lower.prologue P.rootCount ++ x.code ++ [Code.Instr.ret x.value]⟩], ?_, ?_⟩
  · simp only [hq, List.append_assoc]
  · have hlast : b₂.module.Before { b₂.module with procedures := b₂.module.procedures ++
        [⟨p, P.scope, Lower.prologue P.rootCount ++ x.code ++ [Code.Instr.ret x.value]⟩] } :=
      ⟨List.prefix_append _ _, List.prefix_rfl⟩
    refine List.rel_append (hi.imp fun _ _ hq => hq.mono hlast) (.cons ?_ .nil)
    exact .intro hdecl rfl hx hlast

mutual

theorem lower_emits : ∀ {e : Expr} {b b' : Builder} {x : Lowered}, e.lower b = .ok x b' →
    b.Emits b' e.literals
  | .integer _ _, b, b', x, h => by
    obtain ⟨-, rfl⟩ := pure_eq_ok.mp h
    rw [literals]
    exact .refl _
  | .boolean _ _, b, b', x, h => by
    obtain ⟨-, rfl⟩ := pure_eq_ok.mp h
    rw [literals]
    exact .refl _
  | .text _ _ _, b, b', x, h => by
    obtain ⟨rfl, -⟩ := lower_text h
    rw [literals]
    exact .intern _ _ _
  | .unit _, b, b', x, h => by
    obtain ⟨-, rfl⟩ := pure_eq_ok.mp h
    rw [literals]
    exact .refl _
  | .name _ _ _ _, b, b', x, h => by
    obtain ⟨-, rfl⟩ := pure_eq_ok.mp h
    rw [literals]
    exact .refl _
  | .unary _ _ operand, b, b', x, h => by
    obtain ⟨y, hy, -⟩ := lower_unary h
    rw [literals]
    exact lower_emits hy
  | .binary _ _ left right, b, b', x, h => by
    obtain ⟨l, r, b₁, b₂, hl, hr, hrest⟩ := lower_binary h
    have hboth := (lower_emits hl).trans (lower_emits hr)
    rw [literals]
    rcases hrest with ⟨-, rfl, -⟩ | ⟨-, rfl, -⟩
    · exact hboth.then_temporary
    · exact hboth
  | .call _ callee arguments, b, b', x, h => by
    obtain ⟨code, values, b₁, call, b₂, c, ha, hc, -, rfl, -⟩ := lower_call h
    rw [literals]
    exact ((lowerArguments_emits ha).trans (lowerCallee_emits hc)).then_temporary
  | .branch _ condition thenArm elseArm, b, b', x, h => by
    obtain ⟨y, b₁, c, t, b₂, f, hy, -, ht, hf, -⟩ := lower_branch h
    rw [literals]
    exact ((lower_emits hy).then_temporary.trans (lower_emits ht)).trans (lower_emits hf)
  | .letIn _ _ declarations body, b, b', x, h => by
    obtain ⟨code, b₁, y, b₂, hd, hy, hrest⟩ := lower_let h
    have hboth := (lowerDeclarations_emits hd).trans (lower_emits hy)
    rw [literals]
    rcases hrest with ⟨-, rfl, -⟩ | ⟨_, _, -, -, rfl, -⟩
    · exact hboth
    · exact hboth.then_temporary
  | .block _ body, b, b', x, h => by
    rw [literals]
    rw [lower] at h
    exact lowerBody_emits h

theorem lowerBody_emits : ∀ {es : List Expr} {b b' : Builder} {x : Lowered},
    lowerBody es b = .ok x b' → b.Emits b' (literalsOfAll es)
  | [], b, b', x, h => by
    obtain ⟨-, rfl⟩ := pure_eq_ok.mp h
    rw [literalsOfAll]
    exact .refl _
  | [e], b, b', x, h => by
    rw [literalsOfAll, literalsOfAll, List.append_nil]
    rw [lowerBody] at h
    exact lower_emits h
  | e :: next :: more, b, b', x, h => by
    obtain ⟨code, b₁, y, hd, hy, -⟩ := lowerBody_cons h
    have hmore := lowerBody_emits hy
    rw [literalsOfAll]
    refine Builder.Emits.trans ?_ hmore
    cases e with
    | call info callee arguments =>
      cases hd with
      | call ha hc =>
        rw [literals]
        exact (lowerArguments_emits ha).trans (lowerCallee_emits hc)
      | other he => exact lower_emits he
    | _ =>
      cases hd with
      | other he => exact lower_emits he

theorem lowerArguments_emits : ∀ {es : List Expr} {b b' : Builder}
    {r : List Code.Instr × List Code.Operand}, lowerArguments es b = .ok r b' →
      b.Emits b' (literalsOfAll es)
  | [], b, b', r, h => by
    obtain ⟨-, rfl⟩ := pure_eq_ok.mp h
    rw [literalsOfAll]
    exact .refl _
  | e :: more, b, b', (code, values), h => by
    obtain ⟨y, b₁, code', values', hy, hm, -⟩ := lowerArguments_cons h
    rw [literalsOfAll]
    exact (lower_emits hy).trans (lowerArguments_emits hm)

theorem lowerCallee_emits : ∀ {c : Callee Expr} {b b' : Builder}
    {f : List Code.Operand → Code.Operand}, lowerCallee c b = .ok f b' →
      b.Emits b' (literalsOfCallee c)
  | .builtin _, b, b', _, h => by
    rw [lowerCallee] at h
    obtain ⟨-, rfl⟩ := pure_eq_ok.mp h
    rw [literalsOfCallee]
    exact .refl _
  | .global _, b, b', _, h => by
    rw [lowerCallee] at h
    obtain ⟨-, rfl⟩ := pure_eq_ok.mp h
    rw [literalsOfCallee]
    exact .refl _
  | .literal ⟨scope, parameters, result, body, size, span⟩, b, b', _, h => by
    rw [literalsOfCallee]
    exact emits_literal h fun _ _ _ hx => lower_emits hx

theorem lowerDeclarations_emits : ∀ {ds : List (String × Expr)} {scope : Nat}
    {seen : List (String × String)} {b b' : Builder} {code : List Code.Instr},
    lowerDeclarations scope seen ds b = .ok code b' → b.Emits b' (literalsOfDeclarations ds)
  | [], _, _, b, b', code, h => by
    obtain ⟨-, rfl⟩ := pure_eq_ok.mp h
    rw [literalsOfDeclarations]
    exact .refl _
  | (_, value) :: more, _, _, b, b', code, h => by
    obtain ⟨y, b₁, c, i, code', hy, -, -, hm, -⟩ := lowerDeclarations_cons h
    rw [literalsOfDeclarations]
    exact (lower_emits hy).trans (lowerDeclarations_emits hm)

end

/-- The module has the procedure of a literal once the literal is lowered. -/
theorem exists_procedure_literal {P : Procedure Expr} {b b' : Builder}
    {call : List Code.Operand → Code.Operand} (h : lowerCallee (.literal P) b = .ok call b') :
    ∃ q ∈ b'.module.procedures, q.Implements b'.module (.literal P.scope) P := by
  obtain ⟨qs, hqs, hrel⟩ := (lowerCallee_emits h).procedures
  have hmem : P ∈ literalsOfCallee (.literal P) := by simp [literalsOfCallee_literal]
  obtain ⟨q, hq, himpl⟩ := exists_mem_of_forall₂ hrel hmem
  exact ⟨q, hqs ▸ List.mem_append_right _ hq, himpl⟩

theorem Discarded.emits {e : Expr} {b b' : Builder} {code : List Code.Instr}
    (h : Discarded b b' e code) : b.Emits b' e.literals := by
  cases h with
  | call ha hc =>
    rw [literals]
    exact (lowerArguments_emits ha).trans (lowerCallee_emits hc)
  | other he => exact lower_emits he

end Typed.Expr

end RootedC
