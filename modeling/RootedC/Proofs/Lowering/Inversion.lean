import RootedC.Code.Lowering
import RootedC.Proofs.Outcome

/-!
What a successful lowering of each form of expression has made: the instructions, the operand, and
the builder after it. Later proofs cite these and do not open the lowering itself.
-/
namespace RootedC

namespace Lower

variable {b b' : Builder}

theorem temporary_eq_ok {target : Code.Var} :
    temporary b = .ok target b' ↔ target = b.temporary.1 ∧ b' = b.temporary.2 := by
  simp [temporary, eq_comm]

theorem cType_eq_ok {ty : Ty} {position : Position} {c : String} :
    cType ty position b = .ok c b' ↔ ty.cType = .ok c ∧ b' = b := by
  unfold cType
  cases ty.cType <;> simp [pure_run, fail, eq_comm]

theorem intern_eq_ok {raw : String} {length index : Nat} :
    intern raw length b = .ok index b' ↔
      index = (b.module.intern raw length).1 ∧
        b' = { b with module := (b.module.intern raw length).2 } := by
  simp [intern, Builder.intern, eq_comm]

theorem addPrototype_eq_ok {p : Code.Prototype} {u : Unit} :
    addPrototype p b = .ok u b' ↔
      b' = { b with module := { b.module with prototypes := b.module.prototypes ++ [p] } } := by
  simp [addPrototype, eq_comm]

theorem addProcedure_eq_ok {p : Code.Procedure} {u : Unit} :
    addProcedure p b = .ok u b' ↔
      b' = { b with module := { b.module with procedures := b.module.procedures ++ [p] } } := by
  simp [addProcedure, eq_comm]

theorem inProcedure_eq_ok {α : Type} {scope : Nat} {run : Lower α} {a : α} :
    inProcedure scope run b = .ok a b' ↔
      ∃ inner, run { b with procedure := scope } = .ok a inner ∧
        b' = { inner with procedure := b.procedure } := by
  unfold inProcedure
  cases run { b with procedure := scope } with
  | error d inner => simp
  | ok v inner =>
    constructor
    · intro h
      cases h
      exact ⟨inner, rfl, rfl⟩
    · rintro ⟨_, h, rfl⟩
      cases h
      rfl

/-- A declaration is a definition or, if the local is there already with that C type, a store. -/
theorem declaration_eq_ok {seen : List (String × String)} {scope : Nat} {name c : String}
    {value : Code.Operand} {position : Position} {i : Code.Instr}
    (h : declaration seen scope name c value position b = .ok i b') :
    b' = b ∧ ((seen.lookup name = none ∧ i = .define c (.named scope name) (some value)) ∨
      seen.lookup name = some c ∧ i = .store (.named scope name) value) := by
  unfold declaration at h
  cases hs : seen.lookup name with
  | none =>
    rw [hs] at h
    obtain ⟨rfl, rfl⟩ := pure_eq_ok.mp h
    exact ⟨rfl, .inl ⟨rfl, rfl⟩⟩
  | some before =>
    rw [hs] at h
    by_cases hb : before = c
    · simp only [hb, if_true] at h
      obtain ⟨rfl, rfl⟩ := pure_eq_ok.mp h
      exact ⟨rfl, .inr ⟨by rw [hb], rfl⟩⟩
    · simp [hb, fail] at h

end Lower

/-- The operand of a unary operator. -/
def UnaryOp.operand : UnaryOp → Code.Operand → Code.Operand
  | negate => .negate
  | not => .not

namespace Typed.Expr

variable {b b' : Builder} {x : Lowered} {info : Info}

theorem lower_unary {op : UnaryOp} {e : Expr}
    (h : (Expr.unary info op e).lower b = .ok x b') :
    ∃ y, e.lower b = .ok y b' ∧ x = ⟨y.code, op.operand y.value⟩ := by
  rw [lower, bind_eq_ok] at h
  obtain ⟨y, b₁, hy, h⟩ := h
  cases op <;>
    · obtain ⟨rfl, rfl⟩ := pure_eq_ok.mp h
      exact ⟨y, hy, rfl⟩

/-- A connective whose right operand needs instructions gets a branch and a temporary. -/
theorem lower_binary {op : BinaryOp} {left right : Expr}
    (h : (Expr.binary info op left right).lower b = .ok x b') :
    ∃ l r b₁ b₂, left.lower b = .ok l b₁ ∧ right.lower b₁ = .ok r b₂ ∧
      ((op.isConnective = true ∧ b' = b₂.temporary.2 ∧ ∃ c, info.ty.cType = .ok c ∧
        x = ⟨l.code ++ [Code.Instr.define c b₂.temporary.1 (some l.value),
            Code.Instr.branch (.load b₂.temporary.1)
              (Lower.rightArm op (r.code ++ [Code.Instr.store b₂.temporary.1 r.value])).1
              (Lower.rightArm op (r.code ++ [Code.Instr.store b₂.temporary.1 r.value])).2],
          .load b₂.temporary.1⟩) ∨
      ((op.isConnective = true → r.code = []) ∧ b' = b₂ ∧
        x = ⟨l.code ++ r.code, .binary op l.value r.value⟩)) := by
  rw [lower, bind_eq_ok] at h
  obtain ⟨l, b₁, hl, h⟩ := h
  obtain ⟨r, b₂, hr, h⟩ := bind_eq_ok.mp h
  refine ⟨l, r, b₁, b₂, hl, hr, ?_⟩
  by_cases hc : (op.isConnective && !r.code.isEmpty) = true
  · rw [if_pos hc] at h
    obtain ⟨target, b₃, ht, h⟩ := bind_eq_ok.mp h
    obtain ⟨rfl, rfl⟩ := Lower.temporary_eq_ok.mp ht
    obtain ⟨c, b₄, hrun, hrest⟩ := bind_eq_ok.mp h
    obtain ⟨hty, rfl⟩ := Lower.cType_eq_ok.mp hrun
    obtain ⟨rfl, rfl⟩ := pure_eq_ok.mp hrest
    rw [Bool.and_eq_true] at hc
    exact .inl ⟨hc.1, rfl, c, hty, rfl⟩
  · rw [if_neg hc] at h
    obtain ⟨rfl, rfl⟩ := pure_eq_ok.mp h
    refine .inr ⟨fun ho => ?_, rfl, rfl⟩
    simpa [ho] using hc

theorem lower_call {callee : Callee Expr} {arguments : List Expr}
    (h : (Expr.call info callee arguments).lower b = .ok x b') :
    ∃ code values b₁ call b₂ c, lowerArguments arguments b = .ok (code, values) b₁ ∧
      lowerCallee callee b₁ = .ok call b₂ ∧ info.ty.cType = .ok c ∧ b' = b₂.temporary.2 ∧
      x = ⟨code ++ [Code.Instr.define c b₂.temporary.1 (some (call values))] ++
        Lower.setRoot info.root? b₂.temporary.1, .load b₂.temporary.1⟩ := by
  rw [lower, bind_eq_ok] at h
  obtain ⟨⟨code, values⟩, b₁, ha, h⟩ := h
  obtain ⟨call, b₂, hc, h⟩ := bind_eq_ok.mp h
  obtain ⟨target, b₃, ht, h⟩ := bind_eq_ok.mp h
  obtain ⟨rfl, rfl⟩ := Lower.temporary_eq_ok.mp ht
  obtain ⟨c, b₄, hrun, hrest⟩ := bind_eq_ok.mp h
  obtain ⟨hty, rfl⟩ := Lower.cType_eq_ok.mp hrun
  obtain ⟨rfl, rfl⟩ := pure_eq_ok.mp hrest
  exact ⟨code, values, b₁, call, b₂, c, ha, hc, hty, rfl, rfl⟩

theorem lower_branch {condition thenArm elseArm : Expr}
    (h : (Expr.branch info condition thenArm elseArm).lower b = .ok x b') :
    ∃ y b₁ c t b₂ f, condition.lower b = .ok y b₁ ∧ info.ty.cType = .ok c ∧
      thenArm.lower b₁.temporary.2 = .ok t b₂ ∧ elseArm.lower b₂ = .ok f b' ∧
      x = ⟨y.code ++ [Code.Instr.define c b₁.temporary.1 none,
        Code.Instr.branch y.value (t.code ++ [Code.Instr.store b₁.temporary.1 t.value])
          (f.code ++ [Code.Instr.store b₁.temporary.1 f.value])], .load b₁.temporary.1⟩ := by
  rw [lower, bind_eq_ok] at h
  obtain ⟨y, b₁, hy, h⟩ := h
  obtain ⟨target, b₂, ht, h⟩ := bind_eq_ok.mp h
  obtain ⟨rfl, rfl⟩ := Lower.temporary_eq_ok.mp ht
  obtain ⟨c, b₃, hrun, hrest⟩ := bind_eq_ok.mp h
  obtain ⟨hty, rfl⟩ := Lower.cType_eq_ok.mp hrun
  obtain ⟨t, b₄, ht, h⟩ := bind_eq_ok.mp hrest
  obtain ⟨f, b₅, hf, h⟩ := bind_eq_ok.mp h
  obtain ⟨rfl, rfl⟩ := pure_eq_ok.mp h
  exact ⟨y, b₁, c, t, b₄, f, hy, hty, ht, hf, rfl⟩

theorem lower_let {scope : Nat} {declarations : List (String × Expr)} {body : Expr}
    (h : (Expr.letIn info scope declarations body).lower b = .ok x b') :
    ∃ code b₁ y b₂, lowerDeclarations scope [] declarations b = .ok code b₁ ∧
      body.lower b₁ = .ok y b₂ ∧
      ((info.root? = none ∧ b' = b₂ ∧
        x = ⟨code ++ y.code ++ Lower.clearRoots declarations, y.value⟩) ∨
      ∃ slot c, info.root? = some slot ∧ info.ty.cType = .ok c ∧ b' = b₂.temporary.2 ∧
        x = ⟨code ++ y.code ++ [Code.Instr.define c b₂.temporary.1 (some y.value),
          Code.Instr.setRoot slot (.load b₂.temporary.1)] ++ Lower.clearRoots declarations,
          .load b₂.temporary.1⟩) := by
  rw [lower, bind_eq_ok] at h
  obtain ⟨code, b₁, hd, h⟩ := h
  obtain ⟨y, b₂, hy, h⟩ := bind_eq_ok.mp h
  refine ⟨code, b₁, y, b₂, hd, hy, ?_⟩
  cases hroot : info.root? with
  | none =>
    rw [hroot] at h
    obtain ⟨rfl, rfl⟩ := pure_eq_ok.mp h
    exact .inl ⟨rfl, rfl, rfl⟩
  | some slot =>
    rw [hroot] at h
    obtain ⟨target, b₃, ht, h⟩ := bind_eq_ok.mp h
    obtain ⟨rfl, rfl⟩ := Lower.temporary_eq_ok.mp ht
    obtain ⟨c, b₄, hrun, hrest⟩ := bind_eq_ok.mp h
    obtain ⟨hty, rfl⟩ := Lower.cType_eq_ok.mp hrun
    obtain ⟨rfl, rfl⟩ := pure_eq_ok.mp hrest
    exact .inr ⟨slot, c, rfl, hty, rfl, rfl⟩

theorem lower_text {raw : String} {length : Nat}
    (h : (Expr.text info raw length).lower b = .ok x b') :
    b' = { b with module := (b.module.intern raw length).2 } ∧
      x = ⟨[], .text (b.module.intern raw length).1⟩ := by
  rw [lower, bind_eq_ok] at h
  obtain ⟨index, b₁, hi, h⟩ := h
  obtain ⟨rfl, rfl⟩ := Lower.intern_eq_ok.mp hi
  obtain ⟨rfl, rfl⟩ := pure_eq_ok.mp h
  exact ⟨rfl, rfl⟩

/-- An expression whose value is not read. A call then needs no temporary. -/
inductive Discarded (b b' : Builder) : Expr → List Code.Instr → Prop
  | call {info : Info} {callee : Callee Expr} {arguments : List Expr} {code : List Code.Instr}
    {values : List Code.Operand} {b₁ : Builder} {call : List Code.Operand → Code.Operand}
    (ha : lowerArguments arguments b = .ok (code, values) b₁)
    (hc : lowerCallee callee b₁ = .ok call b') :
    Discarded b b' (.call info callee arguments) (code ++ [.eval (call values)])
  | other {e : Expr} {y : Lowered} (h : e.lower b = .ok y b') : Discarded b b' e y.code

theorem lowerBody_call {callee : Callee Expr} {arguments : List Expr} {next : Expr}
    {more : List Expr} (h : lowerBody (.call info callee arguments :: next :: more) b = .ok x b') :
    ∃ code values b₁ call b₂ y, lowerArguments arguments b = .ok (code, values) b₁ ∧
      lowerCallee callee b₁ = .ok call b₂ ∧ lowerBody (next :: more) b₂ = .ok y b' ∧
      x = ⟨code ++ [Code.Instr.eval (call values)] ++ y.code, y.value⟩ := by
  rw [lowerBody, bind_eq_ok] at h
  obtain ⟨⟨code, values⟩, b₁, ha, h⟩ := h
  obtain ⟨call, b₂, hc, h⟩ := bind_eq_ok.mp h
  obtain ⟨_, b₃, hp, h⟩ := bind_eq_ok.mp h
  obtain ⟨rfl, rfl⟩ := pure_eq_ok.mp hp
  obtain ⟨y, b₄, hy, h⟩ := bind_eq_ok.mp h
  obtain ⟨rfl, rfl⟩ := pure_eq_ok.mp h
  exact ⟨code, values, b₁, call, b₂, y, ha, hc, hy, rfl⟩

theorem lowerBody_cons {e next : Expr} {more : List Expr}
    (h : lowerBody (e :: next :: more) b = .ok x b') :
    ∃ code b₁ y, Discarded b b₁ e code ∧ lowerBody (next :: more) b₁ = .ok y b' ∧
      x = ⟨code ++ y.code, y.value⟩ := by
  cases e with
  | call info callee arguments =>
    obtain ⟨code, values, b₁, call, b₂, y, ha, hc, hy, rfl⟩ := lowerBody_call h
    exact ⟨_, _, y, .call ha hc, hy, rfl⟩
  | _ =>
    simp only [lowerBody, bind_eq_ok] at h
    obtain ⟨x, b₁, hx, _, b₂, hp, y, b₃, hy, h⟩ := h
    obtain ⟨rfl, rfl⟩ := pure_eq_ok.mp hp
    obtain ⟨rfl, rfl⟩ := pure_eq_ok.mp h
    exact ⟨_, _, y, .other hx, hy, rfl⟩

theorem lowerArguments_cons {e : Expr} {more : List Expr} {code : List Code.Instr}
    {values : List Code.Operand} (h : lowerArguments (e :: more) b = .ok (code, values) b') :
    ∃ y b₁ code' values', e.lower b = .ok y b₁ ∧
      lowerArguments more b₁ = .ok (code', values') b' ∧ code = y.code ++ code' ∧
      values = y.value :: values' := by
  rw [lowerArguments, bind_eq_ok] at h
  obtain ⟨y, b₁, hy, h⟩ := h
  obtain ⟨⟨code', values'⟩, b₂, hm, h⟩ := bind_eq_ok.mp h
  obtain ⟨h, rfl⟩ := pure_eq_ok.mp h
  cases h
  exact ⟨y, b₁, code', values', hy, hm, rfl, rfl⟩

theorem lowerDeclarations_cons_seen {scope : Nat} {seen : List (String × String)} {name : String}
    {value : Expr} {more : List (String × Expr)} {code : List Code.Instr}
    (h : lowerDeclarations scope seen ((name, value) :: more) b = .ok code b') :
    ∃ y b₁ c, ∃ i : Code.Instr, ∃ code', value.lower b = .ok y b₁ ∧ value.ty.cType = .ok c ∧
      ((seen.lookup name = none ∧ i = .define c (.named scope name) (some y.value)) ∨
        seen.lookup name = some c ∧ i = .store (.named scope name) y.value) ∧
      lowerDeclarations scope ((name, c) :: seen) more b₁ = .ok code' b' ∧
      code = y.code ++ [i] ++ code' := by
  rw [lowerDeclarations, bind_eq_ok] at h
  obtain ⟨y, b₁, hy, h⟩ := h
  obtain ⟨c, b₂, hrun, hrest⟩ := bind_eq_ok.mp h
  obtain ⟨hty, rfl⟩ := Lower.cType_eq_ok.mp hrun
  obtain ⟨i, b₃, hdecl, hrest'⟩ := bind_eq_ok.mp hrest
  obtain ⟨rfl, hi⟩ := Lower.declaration_eq_ok hdecl
  obtain ⟨code', b₄, hm, h⟩ := bind_eq_ok.mp hrest'
  obtain ⟨rfl, rfl⟩ := pure_eq_ok.mp h
  exact ⟨y, _, c, i, code', hy, hty, hi, hm, rfl⟩

theorem lowerDeclarations_cons {scope : Nat} {seen : List (String × String)} {name : String}
    {value : Expr} {more : List (String × Expr)} {code : List Code.Instr}
    (h : lowerDeclarations scope seen ((name, value) :: more) b = .ok code b') :
    ∃ y b₁ c, ∃ i : Code.Instr, ∃ code', value.lower b = .ok y b₁ ∧ value.ty.cType = .ok c ∧
      (i = .define c (.named scope name) (some y.value) ∨ i = .store (.named scope name) y.value) ∧
      lowerDeclarations scope ((name, c) :: seen) more b₁ = .ok code' b' ∧
      code = y.code ++ [i] ++ code' := by
  obtain ⟨y, b₁, c, i, code', hy, hty, hi, hm, rfl⟩ := lowerDeclarations_cons_seen h
  exact ⟨y, b₁, c, i, code', hy, hty, hi.imp And.right And.right, hm, rfl⟩

/-- A literal becomes a procedure of the module. -/
theorem lowerCallee_literal {P : Procedure Expr} {call : List Code.Operand → Code.Operand}
    (h : lowerCallee (.literal P) b = .ok call b') :
    ∃ p b₁ x b₂, Lower.prototype (.literal P.scope) P b = .ok p b₁ ∧
      P.body.lower { b₁ with
        module := { b₁.module with prototypes := b₁.module.prototypes ++ [p] },
        procedure := P.scope } = .ok x b₂ ∧
      b' = { b₂ with
        module := { b₂.module with procedures := b₂.module.procedures ++
          [⟨p, P.scope, Lower.prologue P.rootCount ++ x.code ++ [Code.Instr.ret x.value]⟩] },
        procedure := b₁.procedure } ∧
      call = .callProcedure (.literal P.scope) := by
  obtain ⟨scope, parameters, result, body, size, span⟩ := P
  rw [lowerCallee, bind_eq_ok] at h
  obtain ⟨p, b₁, hp, h⟩ := h
  obtain ⟨_, b₂, ha, h⟩ := bind_eq_ok.mp h
  rw [Lower.addPrototype_eq_ok] at ha
  subst ha
  obtain ⟨x, b₃, hin, hrest⟩ := bind_eq_ok.mp h
  obtain ⟨inner, hx, rfl⟩ := Lower.inProcedure_eq_ok.mp hin
  obtain ⟨_, b₄, ha, h⟩ := bind_eq_ok.mp hrest
  rw [Lower.addProcedure_eq_ok] at ha
  subst ha
  obtain ⟨rfl, rfl⟩ := pure_eq_ok.mp h
  exact ⟨p, b₁, x, inner, hp, hx, rfl, rfl⟩

end Typed.Expr

namespace Lower

variable {b b' : Builder} {u : Unit}

theorem constant_eq_ok {c : Typed.Constant} (h : constant c b = .ok u b') :
    ∃ x b₁ ty, c.value.lower b = .ok x b₁ ∧ c.ty.cType = .ok ty ∧
      b' = { b₁ with module := { b₁.module with
        constants := b₁.module.constants ++ [⟨c.name, ty, x.value⟩] } } := by
  rw [constant, bind_eq_ok] at h
  obtain ⟨x, b₁, hx, h⟩ := h
  obtain ⟨ty, b₂, hrun, hrest⟩ := bind_eq_ok.mp h
  obtain ⟨hty, rfl⟩ := cType_eq_ok.mp hrun
  exact ⟨x, b₂, ty, hx, hty, by simpa [addConstant, eq_comm] using hrest⟩

theorem procedure_eq_ok {p : Code.Prototype} {P : Typed.Procedure Typed.Expr}
    (h : procedure p P b = .ok u b') :
    ∃ x b₁, P.body.lower { b with procedure := P.scope } = .ok x b₁ ∧
      b' = { b₁ with
        module := { b₁.module with procedures := b₁.module.procedures ++
          [⟨p, P.scope, prologue P.rootCount ++ x.code ++ [Code.Instr.ret x.value]⟩] },
        procedure := b.procedure } := by
  rw [procedure, bind_eq_ok] at h
  obtain ⟨x, b₁, hin, h⟩ := h
  obtain ⟨inner, hx, rfl⟩ := inProcedure_eq_ok.mp hin
  rw [addProcedure_eq_ok] at h
  exact ⟨x, inner, hx, h⟩

theorem entry_eq_ok {P : Typed.Procedure Typed.Expr} (h : entry P b = .ok u b') :
    ∃ x b₁, P.body.lower { b with procedure := P.scope } = .ok x b₁ ∧
      b' = { b₁ with
        module := { b₁.module with
          entryPoint? := some ⟨P.scope, prologue P.rootCount ++ x.code⟩ },
        procedure := b.procedure } := by
  rw [entry, bind_eq_ok] at h
  obtain ⟨x, b₁, hin, h⟩ := h
  obtain ⟨inner, hx, rfl⟩ := inProcedure_eq_ok.mp hin
  exact ⟨x, inner, hx, by simpa [setEntry, eq_comm] using h⟩

end Lower

/-- The passes over a module: prototypes, constants, procedures and the entry. -/
theorem Typed.Module.lower_eq_ok {tm : Typed.Module} {m : Code.Module} (h : tm.lower = .ok m) :
    ∃ ps b₁ b₂ b₃ b, Lower.prototypes tm.procedures .initial = .ok ps b₁ ∧
      Lower.constants tm.constants b₁ = .ok () b₂ ∧
      Lower.procedures (ps.zip (tm.procedures.map (·.2))) b₂ = .ok () b₃ ∧
      (tm.entryPoint? = none → b = b₃) ∧
      (∀ P ∈ tm.entryPoint?, Lower.entry P b₃ = .ok () b) ∧ m = b.module := by
  unfold lower at h
  cases hrun : Lower.module tm Builder.initial with
  | error d b => simp [hrun] at h
  | ok u b =>
    simp only [hrun, Except.ok.injEq] at h
    rw [Lower.module, bind_eq_ok] at hrun
    obtain ⟨ps, b₁, hps, hrun⟩ := hrun
    obtain ⟨_, b₂, hcs, hrun⟩ := bind_eq_ok.mp hrun
    obtain ⟨_, b₃, hprocs, hrun⟩ := bind_eq_ok.mp hrun
    refine ⟨ps, b₁, b₂, b₃, b, hps, hcs, hprocs, ?_, ?_, h.symm⟩
    · intro hentry
      rw [hentry] at hrun
      exact (pure_eq_ok.mp hrun).2.symm
    · intro P hentry
      rw [Option.mem_def.mp hentry] at hrun
      exact hrun

end RootedC
