import RootedC.Proofs.Lowering.Strings
import RootedC.Proofs.Semantics.Machine
import RootedC.Proofs.Semantics.Program

/-!
Code computes what the expression it was made from means. Operands are read later than the
expressions they stand for, so the code of an expression leaves every local alone that a pending
operand may read: the temporaries made before, and the locals of the scopes around.
-/
namespace RootedC

namespace Code

/-- A local of a scope, or a temporary, whose number is below a mark. -/
def Var.Below (scopes temporaries : Nat) : Var → Prop
  | named scope _ => scope < scopes
  | temporary _ index => index < temporaries

theorem Var.Below.mono {n n' k k' : Nat} {x : Var} (h : x.Below n k) (hn : n ≤ n')
    (hk : k ≤ k') : x.Below n' k' := by
  cases x with
  | named scope name => exact Nat.lt_of_lt_of_le h hn
  | temporary scope index => exact Nat.lt_of_lt_of_le h hk

/-- Later locals in which everything below the marks is as it was. -/
def Locals.Keeps (n k : Nat) (σ σ' : Locals) : Prop := ∀ x : Var, x.Below n k → σ' x = σ x

namespace Locals.Keeps

variable {n n' k k' : Nat} {σ σ' σ'' : Locals}

theorem refl (σ : Locals) : σ.Keeps n k σ := fun _ _ => rfl

theorem trans (h : σ.Keeps n k σ') (h' : σ'.Keeps n k σ'') : σ.Keeps n k σ'' :=
  fun x hx => (h' x hx).trans (h x hx)

theorem mono (h : σ.Keeps n' k' σ') (hn : n ≤ n') (hk : k ≤ k') : σ.Keeps n k σ' :=
  fun x hx => h x (hx.mono hn hk)

theorem set {x : Var} (h : ¬ x.Below n k) (v? : Option Value) : σ.Keeps n k (σ.set x v?) := by
  intro y hy
  refine σ.set_of_ne ?_ v?
  rintro rfl
  exact h hy

end Locals.Keeps

theorem Runs.setRoots {W : World} {σ : Locals} {t : Trace} {target : Var} {v : Value}
    (root? : Option Nat) (h : σ target = some v) :
    Runs W (Lower.setRoot root? target) σ t σ t := by
  cases root? with
  | none => exact .nil
  | some slot =>
    have hload : (Operand.load target).eval W σ t = .ok v t := by
      simp only [Operand.eval, h, pure_run]
    exact .setRoot hload

theorem Runs.clearRoots {W : World} {σ : Locals} {t : Trace}
    (ds : List (String × Typed.Expr)) : Runs W (Lower.clearRoots ds) σ t σ t := by
  induction ds with
  | nil => exact .nil
  | cons d more ih =>
    unfold Lower.clearRoots at ih ⊢
    rw [List.filterMap_cons]
    cases d.2.root? with
    | none => exact ih
    | some slot => exact @Runs.append W σ σ σ t t t [.clearRoot slot] _ (.of_exec rfl) ih

/-- An operand that has a value as long as everything below the marks stays as it is. -/
def Operand.Denotes (W : World) (n k : Nat) (σ : Locals) (x : Operand) (v : Value) : Prop :=
  ∀ σ', σ.Keeps n k σ' → ∀ t, x.eval W σ' t = .ok v t

namespace Operand.Denotes

variable {W : World} {n n' k k' : Nat} {σ σ' : Locals} {x : Operand} {v : Value}

theorem eval (h : x.Denotes W n k σ v) (t : Trace) : x.eval W σ t = .ok v t := h σ (.refl σ) t

theorem later (h : x.Denotes W n k σ v) (hσ : σ.Keeps n k σ') (hn : n ≤ n') (hk : k ≤ k') :
    x.Denotes W n' k' σ' v :=
  fun σ'' hkeeps => h σ'' (hσ.trans (hkeeps.mono hn hk))

theorem load {y : Var} (hy : y.Below n k) (hv : σ y = some v) :
    (Operand.load y).Denotes W n k σ v := by
  intro σ' hkeeps t
  simp only [Operand.eval, (hkeeps y hy).trans hv, pure_run]

end Operand.Denotes

theorem evalAll_of_denotes {W : World} {n k : Nat} {σ : Locals} {xs : List Operand}
    {vs : List Value} (h : List.Forall₂ (Operand.Denotes W n k σ) xs vs) (t : Trace) :
    evalAll W σ xs t = .ok vs t := by
  induction h with
  | nil => rw [evalAll, pure_run]
  | cons hx hmore ih => simp only [evalAll, bind_run, hx.eval t, ih, pure_run]

end Code

open Code

theorem BinaryOp.connect_of_isConnective {op : BinaryOp} (hop : op.isConnective = true)
    {v u : Value} {right : Run Value} {t t' : Trace} (h : op.connect v right t = .ok u t') :
    ∃ b, v = .boolean b ∧
      ((u = v ∧ t' = t ∧ ∀ code, (if b then (Lower.rightArm op code).1
          else (Lower.rightArm op code).2) = []) ∨
        (right t = .ok u t' ∧ ∀ code, (if b then (Lower.rightArm op code).1
          else (Lower.rightArm op code).2) = code)) := by
  unfold connect at h
  cases hd : op.decided? v with
  | some u' =>
    rw [hd] at h
    obtain ⟨rfl, rfl⟩ := pure_eq_ok.mp h
    unfold decided? at hd
    split at hd
    · cases hd
      exact ⟨false, rfl, .inl ⟨rfl, rfl, fun _ => rfl⟩⟩
    · cases hd
      exact ⟨true, rfl, .inl ⟨rfl, rfl, fun _ => rfl⟩⟩
    · cases hd
  | none =>
    rw [hd] at h
    obtain ⟨r, t₁, hr, h⟩ := bind_eq_ok.mp h
    obtain ⟨ha, rfl⟩ := Run.lift_eq_ok.mp h
    cases v with
    | boolean b =>
      refine ⟨b, rfl, .inr ?_⟩
      cases r with
      | boolean b' =>
        cases op <;> cases b <;> cases hop <;> cases hd <;> cases ha <;>
          exact ⟨hr, fun _ => rfl⟩
      | _ => cases ha
    | integer n =>
      cases r with
      | integer n' => cases op <;> cases hop <;> cases ha
      | _ => cases ha
    | _ => cases r <;> cases ha

theorem BinaryOp.isConnective_of_decided {op : BinaryOp} {v u : Value}
    (h : op.decided? v = some u) : op.isConnective = true := by
  unfold decided? at h
  split at h
  · rfl
  · rfl
  · cases h

theorem UnaryOp.eval_operand (op : UnaryOp) (W : World) (σ : Locals) (x : Operand) :
    (op.operand x).eval W σ = x.eval W σ >>= fun v => Run.lift (op.apply v) := by
  cases op <;> rw [UnaryOp.operand, Operand.eval]

namespace Lexical

/-- Locals that hold the values which an environment gives to the names of some frames, all of them
frames of scopes below a mark. -/
structure Sees (n : Nat) (fs : List Frame) (env : Typed.Env) (σ : Locals) : Prop where
  below : ∀ f ∈ fs, f.scope < n
  shared : ∀ x level r, Frame.find x level fs = some r →
    ∃ v, env.lookup x = some v ∧ σ (.named r.scope x) = some v

namespace Sees

variable {n n' k : Nat} {fs : List Frame} {env : Typed.Env} {σ σ' : Locals}

theorem scope_lt (h : Sees n fs env σ) {x : String} {level : Nat} {r : BindingSite}
    (hr : Frame.find x level fs = some r) : r.scope < n := by
  obtain ⟨inner, f, outer, hfs, hs⟩ := find_split hr
  rw [hs]
  exact h.below f (by simp [hfs])

theorem later (h : Sees n fs env σ) (hσ : σ.Keeps n k σ') (hn : n ≤ n') : Sees n' fs env σ' := by
  refine ⟨fun f hf => Nat.lt_of_lt_of_le (h.below f hf) hn, ?_⟩
  intro x level r hr
  obtain ⟨v, henv, hv⟩ := h.shared x level r hr
  exact ⟨v, henv, (hσ (.named r.scope x) (h.scope_lt hr)).trans hv⟩

theorem mono (h : Sees n fs env σ) (hn : n ≤ n') : Sees n' fs env σ :=
  ⟨fun f hf => Nat.lt_of_lt_of_le (h.below f hf) hn, h.shared⟩

theorem opened (h : Sees n fs env σ) : Sees (n + 1) (⟨n, []⟩ :: fs) env σ := by
  refine ⟨?_, ?_⟩
  · intro f hf
    rcases List.mem_cons.mp hf with rfl | hf
    · exact Nat.lt_succ_self n
    · exact Nat.lt_succ_of_lt (h.below f hf)
  · intro x level r hr
    exact h.shared x (level + 1) r hr

/-- A declaration puts its value into the local of the innermost scope. -/
theorem declared {f : Frame} (h : Sees n (f :: fs) env σ) (x : String) (ty : Ty) (v : Value) :
    Sees n ((f :: fs).map (Frame.define f.scope x ty)) ((x, v) :: env)
      (σ.set (.named f.scope x) (some v)) := by
  refine ⟨?_, ?_⟩
  · intro g hg
    obtain ⟨g', hg', rfl⟩ := List.mem_map.mp hg
    simpa using h.below g' hg'
  · intro y level r hr
    by_cases hy : y = x
    · subst hy
      have hscope : r.scope = f.scope := by
        simp only [List.map_cons, Frame.define, if_true, Frame.find, Bindings.get?_bind_self,
          Option.some.injEq] at hr
        rw [← hr]
      exact ⟨v, by simp, by rw [hscope, Locals.set_self]⟩
    · rw [Frame.find_define_of_ne f.scope ty (f :: fs) level hy] at hr
      obtain ⟨u, henv, hu⟩ := h.shared y level r hr
      refine ⟨u, ?_, ?_⟩
      · rw [List.lookup_cons, beq_false_of_ne hy]
        exact henv
      · rw [Locals.set_of_ne _ (by simp [hy]), hu]

end Sees

end Lexical

/-- Surroundings of code that answer as the surroundings of typed programs do. Calls of literals are
asked for only where the module has the code of the literal. -/
structure Code.World.Follows (W : Code.World) (G : Bindings Ty) (M : Code.Module)
    (w : Typed.World) : Prop where
  text : W.text = M.text?
  measured : M.Measured
  constant : ∀ name t v t', w.constant name t = .ok v t' →
    t' = t ∧ ∀ s, W.constant name s = .ok v s
  builtin : ∀ name vs t v t', w.call (.builtin name) vs t = .ok v t' →
    W.builtin name vs t = .ok v t'
  global : ∀ name vs t v t', w.call (.global name) vs t = .ok v t' →
    W.call (.user name) vs t = .ok v t'
  literal : ∀ P q n n' vs t v t', q ∈ M.procedures → q.Implements M (.literal P.scope) P →
    Lexical.ProcedureFits G P n n' → w.call (.literal P) vs t = .ok v t' →
    W.call (.literal P.scope) vs t = .ok v t'

/-- Code that runs to its end and leaves a value in its operand. Below the marks `n` and `k` nothing
changes; the operand stays good as long as nothing below `n'` and `k'` does. -/
def Lowered.Computes (W : Code.World) (x : Lowered) (n k n' k' : Nat) (σ : Locals) (t : Trace)
    (v : Value) (t' : Trace) : Prop :=
  ∃ σ', Runs W x.code σ t σ' t' ∧ σ.Keeps n k σ' ∧ x.value.Denotes W n' k' σ' v

theorem Lowered.Computes.weaken {W : Code.World} {x : Lowered} {n n₀ k k₀ n' k' : Nat} {σ : Locals}
    {t t' : Trace} {v : Value} (h : x.Computes W n k n' k' σ t v t') (hn : n₀ ≤ n) (hk : k₀ ≤ k) :
    x.Computes W n₀ k₀ n' k' σ t v t' := by
  obtain ⟨σ', hrun, hkeep, hv⟩ := h
  exact ⟨σ', hrun, hkeep.mono hn hk, hv⟩

theorem Lowered.Computes.store {W : Code.World} {x : Lowered} {n k n' k' : Nat} {σ : Locals}
    {t t' : Trace} {v : Value} (h : x.Computes W n k n' k' σ t v t') {target : Var}
    (ht : ¬ target.Below n k) :
    ∃ σ', Runs W (x.code ++ [Instr.store target x.value]) σ t σ' t' ∧ σ.Keeps n k σ' ∧
      σ' target = some v := by
  obtain ⟨σ₁, hrun, hkeep, hv⟩ := h
  exact ⟨_, hrun.append (.store (hv.eval t')), hkeep.trans (.set ht _), σ₁.set_self _ _⟩

namespace Typed.Expr

open Lexical

variable {G : Bindings Ty} {M : Code.Module} {w : World} {W : Code.World}

/-- A call of a callee, on operands that have the values of the arguments. -/
theorem lowerCallee_calls (hw : W.Follows G M w) {c : Callee Expr} {b b' : Builder}
    {call : List Operand → Operand} {fs : List Frame} {ty : Ty} {p q : Place} {xs : List Operand}
    {vs : List Value} {σ : Locals} {t t' : Trace} {v : Value}
    (h : lowerCallee c b = .ok call b') (hM : b'.module.Before M) (hfits : CalleeFits G fs c ty p q)
    (hxs : Code.evalAll W σ xs t = .ok vs t) (hcall : w.call c vs t = .ok v t') :
    (call xs).eval W σ t = .ok v t' := by
  cases c with
  | builtin name =>
    rw [lowerCallee] at h
    obtain ⟨rfl, rfl⟩ := pure_eq_ok.mp h
    have hb := hw.builtin name vs t v t' hcall
    unfold Lower.builtinCall
    split <;> simpa only [Operand.eval, bind_run, hxs] using hb
  | global name =>
    rw [lowerCallee] at h
    obtain ⟨rfl, rfl⟩ := pure_eq_ok.mp h
    simpa only [Operand.eval, bind_run, hxs] using hw.global name vs t v t' hcall
  | literal P =>
    obtain ⟨-, -, hP⟩ := calleeFits_literal.mp hfits
    obtain ⟨-, -, -, -, -, -, -, rfl⟩ := lowerCallee_literal h
    obtain ⟨q, hq, himpl⟩ := exists_procedure_literal h
    simpa only [Operand.eval, bind_run, hxs] using
      hw.literal P q _ _ vs t v t' (hM.procedures.subset hq) (himpl.mono hM) hP hcall

mutual

theorem lower_computes (hw : W.Follows G M w) : ∀ {e : Expr} {b b' : Builder} {x : Lowered}
    {fs : List Frame} {p q : Place} {env : Env} {σ : Locals} {t t' : Trace} {v : Value},
    e.lower b = .ok x b' → b'.module.Before M → Fits G fs e p q → Sees p.scope fs env σ →
      e.eval w env t = .ok v t' →
      x.Computes W p.scope b.temporaries q.scope b'.temporaries σ t v t'
  | .integer _ value, b, b', x, fs, p, q, env, σ, t, t', v, h, hM, hfits, hsees, he => by
    rw [lower] at h
    rw [eval] at he
    obtain ⟨rfl, rfl⟩ := pure_eq_ok.mp h
    obtain ⟨rfl, rfl⟩ := pure_eq_ok.mp he
    exact ⟨σ, .nil, .refl σ, fun σ' _ s => by rw [Operand.eval, pure_run]⟩
  | .boolean _ value, b, b', x, fs, p, q, env, σ, t, t', v, h, hM, hfits, hsees, he => by
    rw [lower] at h
    rw [eval] at he
    obtain ⟨rfl, rfl⟩ := pure_eq_ok.mp h
    obtain ⟨rfl, rfl⟩ := pure_eq_ok.mp he
    exact ⟨σ, .nil, .refl σ, fun σ' _ s => by rw [Operand.eval, pure_run]⟩
  | .text _ raw length, b, b', x, fs, p, q, env, σ, t, t', v, h, hM, hfits, hsees, he => by
    rw [eval] at he
    obtain ⟨rfl, rfl⟩ := lower_text h
    obtain ⟨rfl, rfl⟩ := pure_eq_ok.mp he
    obtain ⟨-, -, rfl, -⟩ := hfits
    have ht := Code.Module.text?_of_intern hM hw.measured
    exact ⟨σ, .nil, .refl σ, fun σ' _ s => by simp only [Operand.eval, hw.text, ht, pure_run]⟩
  | .unit _, b, b', x, fs, p, q, env, σ, t, t', v, h, hM, hfits, hsees, he => by
    rw [lower] at h
    rw [eval] at he
    obtain ⟨rfl, rfl⟩ := pure_eq_ok.mp h
    obtain ⟨rfl, rfl⟩ := pure_eq_ok.mp he
    exact ⟨σ, .nil, .refl σ, fun σ' _ s => by
      simp only [Operand.unit, Operand.eval, if_true, pure_run]⟩
  | .name _ z level origin, b, b', x, fs, p, q, env, σ, t, t', v, h, hM, hfits, hsees, he => by
    rw [lower] at h
    rw [Fits] at hfits
    obtain ⟨rfl, rfl⟩ := pure_eq_ok.mp h
    obtain ⟨-, -, hname, rfl⟩ := hfits
    cases origin with
    | lexical scope =>
      obtain ⟨u, henv, hu⟩ := hsees.shared _ _ _ hname
      have hlt : scope < q.scope := hsees.scope_lt hname
      simp only [eval, henv] at he
      obtain ⟨rfl, rfl⟩ := pure_eq_ok.mp he
      exact ⟨σ, .nil, .refl σ, .load hlt hu⟩
    | global =>
      obtain ⟨rfl, hc⟩ := hw.constant z t v t' he
      exact ⟨σ, .nil, .refl σ, fun σ' _ s => by rw [Lower.nameOperand, Operand.eval, hc s]⟩
    | builtin => exact hname.elim
  | .unary _ op operand, b, b', x, fs, p, q, env, σ, t, t', v, h, hM, hfits, hsees, he => by
    obtain ⟨y, hy, rfl⟩ := lower_unary h
    rw [Fits] at hfits
    rw [eval, bind_eq_ok] at he
    obtain ⟨u, t₁, hu, he⟩ := he
    obtain ⟨happly, rfl⟩ := Run.lift_eq_ok.mp he
    obtain ⟨σ', hrun, hkeep, hden⟩ := lower_computes hw hy hM hfits.2.2.2 hsees hu
    refine ⟨σ', hrun, hkeep, fun σ'' hσ s => ?_⟩
    rw [UnaryOp.eval_operand, bind_run, hden σ'' hσ s]
    exact Run.lift_eq_ok.mpr ⟨happly, rfl⟩
  | .binary _ op left right, b, b', x, fs, p, q, env, σ, t, t', v, h, hM, hfits, hsees, he => by
    obtain ⟨l, r, b₁, b₂, hl, hr, hrest⟩ := lower_binary h
    rw [Fits] at hfits
    obtain ⟨-, -, -, -, m, hfl, hfr⟩ := hfits
    rw [eval, bind_eq_ok] at he
    obtain ⟨u, t₁, hu, he⟩ := he
    have hM₂ : b₂.module.Before M := by
      rcases hrest with ⟨-, rfl, -⟩ | ⟨-, rfl, -⟩
      · exact hM
      · exact hM
    have hM₁ := (lower_emits hr).before.trans hM₂
    have hT₁ := (lower_emits hl).temporaries
    have hT₂ := (lower_emits hr).temporaries
    have hn₁ := hfl.within.le
    have hn₂ := hfr.within.le
    obtain ⟨σ₁, hrun₁, hkeep₁, hden₁⟩ := lower_computes hw hl hM₁ hfl hsees hu
    rcases hrest with ⟨hop, rfl, c, -, rfl⟩ | ⟨hop, rfl, rfl⟩
    · -- The right operand has code, which runs in an arm of a branch.
      obtain ⟨bit, rfl, hcases⟩ := BinaryOp.connect_of_isConnective hop he
      have htarget : ¬ b₂.temporary.1.Below m.scope b₁.temporaries := Nat.not_lt.mpr hT₂
      have hset : σ₁.Keeps m.scope b₁.temporaries
          (σ₁.set b₂.temporary.1 (some (.boolean bit))) := .set htarget _
      have harm : ∃ σ₂, Runs W
          (if bit then (Lower.rightArm op (r.code ++ [Instr.store b₂.temporary.1 r.value])).1
            else (Lower.rightArm op (r.code ++ [Instr.store b₂.temporary.1 r.value])).2)
          (σ₁.set b₂.temporary.1 (some (.boolean bit))) t₁ σ₂ t' ∧
          (σ₁.set b₂.temporary.1 (some (.boolean bit))).Keeps m.scope b₁.temporaries σ₂ ∧
          σ₂ b₂.temporary.1 = some v := by
        rcases hcases with ⟨rfl, rfl, harm⟩ | ⟨hright, harm⟩
        · rw [harm]
          exact ⟨_, .nil, .refl _, σ₁.set_self _ _⟩
        · rw [harm]
          have hsees₁ := (hsees.later hkeep₁ hn₁).later hset (Nat.le_refl _)
          exact (lower_computes hw hr hM₂ hfr hsees₁ hright).store htarget
      obtain ⟨σ₂, hrun₂, hkeep₂, hv⟩ := harm
      have hload : (Operand.load b₂.temporary.1).eval W
          (σ₁.set b₂.temporary.1 (some (.boolean bit))) t₁ = .ok (.boolean bit) t₁ := by
        simp only [Operand.eval, Locals.set_self, pure_run]
      refine ⟨σ₂, ?_, hkeep₁.trans ((hset.trans hkeep₂).mono hn₁ hT₁),
        .load (Nat.lt_succ_self _) hv⟩
      have hdefine := hrun₁.append (@Runs.define W _ _ _ c b₂.temporary.1 _ _ (hden₁.eval t₁))
      simpa using hdefine.append (.branch hload hrun₂)
    · unfold BinaryOp.connect at he
      cases hd : op.decided? u with
      | some u' =>
        -- A left operand that decides leaves no code of the right one to run.
        rw [hd] at he
        obtain ⟨rfl, rfl⟩ := pure_eq_ok.mp he
        refine ⟨σ₁, ?_, hkeep₁, fun σ' hσ' s => ?_⟩
        · rw [hop (BinaryOp.isConnective_of_decided hd), List.append_nil]
          exact hrun₁
        · have hl' := hden₁.later (.refl σ₁) hn₂ hT₂ σ' hσ' s
          simp only [Operand.eval, bind_run, hl', BinaryOp.connect, hd, pure_run]
      | none =>
        rw [hd] at he
        obtain ⟨u', t₂, hu', he⟩ := bind_eq_ok.mp he
        obtain ⟨happly, rfl⟩ := Run.lift_eq_ok.mp he
        obtain ⟨σ₂, hrun₂, hkeep₂, hden₂⟩ :=
          lower_computes hw hr hM₂ hfr (hsees.later hkeep₁ hn₁) hu'
        refine ⟨σ₂, hrun₁.append hrun₂, hkeep₁.trans (hkeep₂.mono hn₁ hT₁), fun σ' hσ' s => ?_⟩
        have hl' := hden₁.later hkeep₂ hn₂ hT₂ σ' hσ' s
        simp only [Operand.eval, bind_run, hl', BinaryOp.connect, hd, hden₂ σ' hσ' s]
        exact Run.lift_eq_ok.mpr ⟨happly, rfl⟩
  | .call info callee arguments, b, b', x, fs, p, q, env, σ, t, t', v, h, hM, hfits, hsees, he => by
    obtain ⟨code, values, b₁, call, b₂, c, ha, hc, -, rfl, rfl⟩ := lower_call h
    rw [Fits] at hfits
    obtain ⟨tys, m, m', hfc, hfa, hroots⟩ := hfits
    rw [eval, bind_eq_ok] at he
    obtain ⟨vs, t₁, hvs, hcall⟩ := he
    have hM₁ : b₁.module.Before M := (lowerCallee_emits hc).before.trans hM
    have hT₁ := (lowerArguments_emits ha).temporaries
    have hT₂ := (lowerCallee_emits hc).temporaries
    have hn₁ := hfc.within.le
    obtain ⟨σ₁, hrun₁, hkeep₁, hden₁⟩ :=
      lowerArguments_computes hw ha hM₁ hfa (hsees.mono hn₁) hvs
    have heval := lowerCallee_calls hw hc hM hfc (evalAll_of_denotes hden₁ t₁) hcall
    have hset : (σ₁.set b₂.temporary.1 (some v)) b₂.temporary.1 = some v := σ₁.set_self _ _
    have htarget : ¬ b₂.temporary.1.Below p.scope b.temporaries :=
      Nat.not_lt.mpr (Nat.le_trans hT₁ hT₂)
    refine ⟨_, (hrun₁.append (.define heval)).append (.setRoots info.root? hset),
      (hkeep₁.mono hn₁ (Nat.le_refl _)).trans (.set htarget _), .load (Nat.lt_succ_self _) hset⟩
  | .branch _ condition thenArm elseArm, b, b', x, fs, p, q, env, σ, t, t', v, h, hM, hfits, hsees,
      he => by
    obtain ⟨y, b₁, c, l, b₂, r, hy, -, hl, hr, rfl⟩ := lower_branch h
    rw [Fits] at hfits
    obtain ⟨-, -, -, -, m, m', hfy, hfl, hfr⟩ := hfits
    rw [eval, bind_eq_ok] at he
    obtain ⟨u, t₁, hu, he⟩ := he
    have hM₂ := (lower_emits hr).before.trans hM
    have hM₁ : b₁.module.Before M := (lower_emits hl).before.trans hM₂
    have hT₁ := (lower_emits hy).temporaries
    have hT₂ : b₁.temporaries + 1 ≤ b₂.temporaries := (lower_emits hl).temporaries
    have hT₃ := (lower_emits hr).temporaries
    have hn₁ := hfy.within.le
    have hn₂ := hfl.within.le
    obtain ⟨σ₁, hrun₁, hkeep₁, hden₁⟩ := lower_computes hw hy hM₁ hfy hsees hu
    have htarget : ¬ b₁.temporary.1.Below m.scope b₁.temporaries := Nat.lt_irrefl _
    have hset : σ₁.Keeps m.scope b₁.temporaries (σ₁.set b₁.temporary.1 none) := .set htarget _
    have hsees₁ := (hsees.later hkeep₁ hn₁).later hset (Nat.le_refl _)
    have hcond := (hden₁.later hset (Nat.le_refl _) (Nat.le_refl _)).eval t₁
    obtain ⟨bit, rfl, σ₂, hrun₂, hkeep₂, hv⟩ : ∃ bit, u = .boolean bit ∧ ∃ σ₂, Runs W
        (if bit then l.code ++ [Instr.store b₁.temporary.1 l.value]
          else r.code ++ [Instr.store b₁.temporary.1 r.value])
        (σ₁.set b₁.temporary.1 none) t₁ σ₂ t' ∧
        (σ₁.set b₁.temporary.1 none).Keeps m.scope b₁.temporaries σ₂ ∧
        σ₂ b₁.temporary.1 = some v := by
      cases u with
      | boolean bit =>
        refine ⟨bit, rfl, ?_⟩
        cases bit with
        | true =>
          exact ((lower_computes hw hl hM₂ hfl hsees₁ he).weaken (Nat.le_refl _)
            (Nat.le_succ _)).store htarget
        | false =>
          exact ((lower_computes hw hr hM hfr (hsees₁.mono hn₂) he).weaken hn₂
            (Nat.le_of_lt hT₂)).store htarget
      | _ => cases he
    refine ⟨σ₂, ?_, hkeep₁.trans ((hset.trans hkeep₂).mono hn₁ hT₁), .load ?_ hv⟩
    · simpa using (hrun₁.append .undefine).append (.branch hcond hrun₂)
    · exact Nat.lt_of_lt_of_le hT₂ hT₃
  | .letIn _ scope declarations body, b, b', x, fs, p, q, env, σ, t, t', v, h, hM, hfits, hsees,
      he => by
    obtain ⟨code, b₁, y, b₂, hd, hy, hrest⟩ := lower_let h
    rw [Fits] at hfits
    obtain ⟨rfl, -, fs', m, m', hfd, hfy, hroots⟩ := hfits
    rw [eval, bind_eq_ok] at he
    obtain ⟨env', t₁, henv, he⟩ := he
    have hM₂ : b₂.module.Before M := by
      rcases hrest with ⟨-, rfl, -⟩ | ⟨_, _, -, -, rfl, -⟩
      · exact hM
      · exact hM
    have hM₁ := (lower_emits hy).before.trans hM₂
    have hT₁ := (lowerDeclarations_emits hd).temporaries
    have hT₂ := (lower_emits hy).temporaries
    have hn₁ : p.scope ≤ m.scope := Nat.le_of_lt hfd.within.le
    obtain ⟨σ₁, hrun₁, hkeep₁, hsees₁⟩ :=
      lowerDeclarations_computes hw hd hM₁ hfd rfl hsees.opened henv
    obtain ⟨σ₂, hrun₂, hkeep₂, hden₂⟩ := lower_computes hw hy hM₂ hfy hsees₁ he
    have hkeep := hkeep₁.trans (hkeep₂.mono hn₁ hT₁)
    rw [hroots.scope_eq]
    rcases hrest with ⟨-, rfl, rfl⟩ | ⟨slot, c, -, -, rfl, rfl⟩
    · exact ⟨σ₂, (hrun₁.append hrun₂).append (.clearRoots declarations), hkeep, hden₂⟩
    · have hset : (σ₂.set b₂.temporary.1 (some v)) b₂.temporary.1 = some v := σ₂.set_self _ _
      have htarget : ¬ b₂.temporary.1.Below p.scope b.temporaries :=
        Nat.not_lt.mpr (Nat.le_trans hT₁ hT₂)
      refine ⟨_, ?_, hkeep.trans (.set htarget _), .load (Nat.lt_succ_self _) hset⟩
      have hsave := Runs.append (@Runs.define W _ _ _ c _ _ _ (hden₂.eval t'))
        (.setRoots (some slot) hset)
      exact ((hrun₁.append hrun₂).append hsave).append (.clearRoots declarations)
  | .block _ body, b, b', x, fs, p, q, env, σ, t, t', v, h, hM, hfits, hsees, he => by
    rw [lower] at h
    rw [Fits] at hfits
    rw [eval] at he
    exact lowerBody_computes hw h hM hfits.2.2 hsees he

theorem lowerBody_computes (hw : W.Follows G M w) : ∀ {es : List Expr} {b b' : Builder}
    {x : Lowered} {fs : List Frame} {p q : Place} {env : Env} {σ : Locals} {t t' : Trace}
    {v : Value}, lowerBody es b = .ok x b' → b'.module.Before M → AllFit G fs es p q →
      Sees p.scope fs env σ → evalBody w env es t = .ok v t' →
      x.Computes W p.scope b.temporaries q.scope b'.temporaries σ t v t'
  | [], b, b', x, fs, p, q, env, σ, t, t', v, h, hM, hfits, hsees, he => by
    rw [lowerBody] at h
    rw [evalBody] at he
    obtain ⟨rfl, rfl⟩ := pure_eq_ok.mp h
    obtain ⟨rfl, rfl⟩ := pure_eq_ok.mp he
    exact ⟨σ, .nil, .refl σ, fun σ' _ s => by
      simp only [Operand.unit, Operand.eval, if_true, pure_run]⟩
  | [e], b, b', x, fs, p, q, env, σ, t, t', v, h, hM, hfits, hsees, he => by
    rw [lowerBody] at h
    rw [evalBody] at he
    rw [AllFit] at hfits
    obtain ⟨m, hfe, hnil⟩ := hfits
    rw [AllFit] at hnil
    subst hnil
    exact lower_computes hw h hM hfe hsees he
  | e :: next :: more, b, b', x, fs, p, q, env, σ, t, t', v, h, hM, hfits, hsees, he => by
    obtain ⟨code, b₁, y, hd, hy, rfl⟩ := lowerBody_cons h
    rw [AllFit] at hfits
    obtain ⟨m, hfe, hfm⟩ := hfits
    rw [evalBody, bind_eq_ok] at he
    obtain ⟨u, t₁, hu, he⟩ := he
    have hM₁ := (lowerBody_emits hy).before.trans hM
    have hT₁ : b.temporaries ≤ b₁.temporaries := hd.emits.temporaries
    have hn₁ := hfe.within.le
    obtain ⟨σ₁, hrun₁, hkeep₁⟩ : ∃ σ₁, Runs W code σ t σ₁ t₁ ∧
        σ.Keeps p.scope b.temporaries σ₁ := by
      cases e with
      | call info callee arguments =>
        cases hd with
        | call ha hc =>
          rw [Fits] at hfe
          obtain ⟨tys, m₁, m₂, hfc, hfa, -⟩ := hfe
          rw [eval, bind_eq_ok] at hu
          obtain ⟨vs, t₂, hvs, hcall⟩ := hu
          obtain ⟨σ₁, hrun₁, hkeep₁, hden₁⟩ := lowerArguments_computes hw ha
            ((lowerCallee_emits hc).before.trans hM₁) hfa (hsees.mono hfc.within.le) hvs
          have heval := lowerCallee_calls hw hc hM₁ hfc (evalAll_of_denotes hden₁ t₂) hcall
          exact ⟨σ₁, hrun₁.append (.eval heval), hkeep₁.mono hfc.within.le (Nat.le_refl _)⟩
        | other he' =>
          obtain ⟨σ₁, hrun₁, hkeep₁, -⟩ := lower_computes hw he' hM₁ hfe hsees hu
          exact ⟨σ₁, hrun₁, hkeep₁⟩
      | _ =>
        cases hd with
        | other he' =>
          obtain ⟨σ₁, hrun₁, hkeep₁, -⟩ := lower_computes hw he' hM₁ hfe hsees hu
          exact ⟨σ₁, hrun₁, hkeep₁⟩
    obtain ⟨σ₂, hrun₂, hkeep₂, hden₂⟩ :=
      lowerBody_computes hw hy hM hfm (hsees.later hkeep₁ hn₁) he
    exact ⟨σ₂, hrun₁.append hrun₂, hkeep₁.trans (hkeep₂.mono hn₁ hT₁), hden₂⟩

theorem lowerDeclarations_computes (hw : W.Follows G M w) : ∀ {ds : List (String × Expr)}
    {seen : List (String × String)} {b b' : Builder} {code : List Instr} {f : Frame}
    {fs fs' : List Frame} {scope : Nat} {p q : Place} {env env' : Env} {σ : Locals}
    {t t' : Trace}, lowerDeclarations scope seen ds b = .ok code b' → b'.module.Before M →
      DeclarationsFit G scope ds (f :: fs) fs' p q → f.scope = scope →
      Sees p.scope (f :: fs) env σ → evalDeclarations w env ds t = .ok env' t' →
      ∃ σ', Runs W code σ t σ' t' ∧ σ.Keeps scope b.temporaries σ' ∧ Sees q.scope fs' env' σ'
  | [], seen, b, b', code, f, fs, fs', scope, p, q, env, env', σ, t, t', h, hM, hfits, hs, hsees,
      he => by
    rw [lowerDeclarations] at h
    rw [evalDeclarations] at he
    rw [DeclarationsFit] at hfits
    obtain ⟨rfl, rfl⟩ := pure_eq_ok.mp h
    obtain ⟨rfl, rfl⟩ := pure_eq_ok.mp he
    obtain ⟨rfl, rfl⟩ := hfits
    exact ⟨σ, .nil, .refl σ, hsees⟩
  | (z, value) :: more, seen, b, b', code, f, fs, fs', scope, p, q, env, env', σ, t, t', h, hM,
      hfits, hs, hsees, he => by
    obtain ⟨y, b₁, c, i, code', hy, -, hi, hm, rfl⟩ := lowerDeclarations_cons h
    rw [DeclarationsFit] at hfits
    obtain ⟨m, hfv, hfm⟩ := hfits
    rw [evalDeclarations, bind_eq_ok] at he
    obtain ⟨v, t₁, hv, he⟩ := he
    subst hs
    have hM₁ := (lowerDeclarations_emits hm).before.trans hM
    have hT₁ := (lower_emits hy).temporaries
    have hn₁ := hfv.within.le
    have hlt : f.scope < p.scope := hsees.below f List.mem_cons_self
    obtain ⟨σ₁, hrun₁, hkeep₁, hden₁⟩ := lower_computes hw hy hM₁ hfv hsees hv
    have hrun : Runs W [i] σ₁ t₁ (σ₁.set (.named f.scope z) (some v)) t₁ := by
      rcases hi with rfl | rfl
      · exact .define (hden₁.eval t₁)
      · exact .store (hden₁.eval t₁)
    have hsees₁ := (hsees.later hkeep₁ hn₁).declared z value.ty v
    obtain ⟨σ₂, hrun₂, hkeep₂, hsees₂⟩ :=
      lowerDeclarations_computes hw hm hM hfm (Frame.scope_define _ _ _ _) hsees₁ he
    refine ⟨σ₂, (hrun₁.append hrun).append hrun₂, ?_, hsees₂⟩
    have hset : σ₁.Keeps f.scope b.temporaries (σ₁.set (.named f.scope z) (some v)) :=
      .set (Nat.lt_irrefl _) _
    exact ((hkeep₁.mono (Nat.le_of_lt hlt) (Nat.le_refl _)).trans hset).trans
      (hkeep₂.mono (Nat.le_refl _) hT₁)

theorem lowerArguments_computes (hw : W.Follows G M w) : ∀ {es : List Expr} {b b' : Builder}
    {code : List Instr} {values : List Operand} {fs : List Frame} {tys : List Ty} {p q : Place}
    {env : Env} {σ : Locals} {t t' : Trace} {vs : List Value},
    lowerArguments es b = .ok (code, values) b' → b'.module.Before M →
      ArgumentsFit G fs es tys p q → Sees p.scope fs env σ → evalAll w env es t = .ok vs t' →
      ∃ σ', Runs W code σ t σ' t' ∧ σ.Keeps p.scope b.temporaries σ' ∧
        List.Forall₂ (Operand.Denotes W q.scope b'.temporaries σ') values vs
  | [], b, b', code, values, fs, tys, p, q, env, σ, t, t', vs, h, hM, hfits, hsees, he => by
    rw [lowerArguments] at h
    rw [evalAll] at he
    obtain ⟨hnil, rfl⟩ := pure_eq_ok.mp h
    obtain ⟨rfl, rfl⟩ := pure_eq_ok.mp he
    cases hnil
    exact ⟨σ, .nil, .refl σ, .nil⟩
  | e :: more, b, b', code, values, fs, tys, p, q, env, σ, t, t', vs, h, hM, hfits, hsees, he => by
    obtain ⟨y, b₁, code', values', hy, hm, rfl, rfl⟩ := lowerArguments_cons h
    cases tys with
    | nil => exact hfits.elim
    | cons ty tys =>
      rw [ArgumentsFit] at hfits
      obtain ⟨-, m, hfe, hfm⟩ := hfits
      rw [evalAll, bind_eq_ok] at he
      obtain ⟨v, t₁, hv, he⟩ := he
      obtain ⟨vs', t₂, hvs, hpure⟩ := bind_eq_ok.mp he
      obtain ⟨rfl, rfl⟩ := pure_eq_ok.mp hpure
      have hM₁ := (lowerArguments_emits hm).before.trans hM
      have hT₁ := (lower_emits hy).temporaries
      have hT₂ := (lowerArguments_emits hm).temporaries
      have hn₁ := hfe.within.le
      obtain ⟨σ₁, hrun₁, hkeep₁, hden₁⟩ := lower_computes hw hy hM₁ hfe hsees hv
      obtain ⟨σ₂, hrun₂, hkeep₂, hden₂⟩ :=
        lowerArguments_computes hw hm hM hfm (hsees.later hkeep₁ hn₁) hvs
      exact ⟨σ₂, hrun₁.append hrun₂, hkeep₁.trans (hkeep₂.mono hn₁ hT₁),
        .cons (hden₁.later hkeep₂ hfm.within.le hT₂) hden₂⟩

end

end Typed.Expr

end RootedC
