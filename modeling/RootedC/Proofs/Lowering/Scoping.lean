import Mathlib
import RootedC.Proofs.Lowering.CTypes

/-!
Generated code uses locals as C wants them used: where they are declared, and not before they have a
value. Only the temporary of a branch is declared without one, and both arms end by storing it.
-/
namespace RootedC

open Code Lexical

namespace Code

/-- A temporary with a number below a mark. -/
def Var.Early (k : Nat) : Var → Prop
  | .named _ _ => False
  | .temporary _ index => index < k

/-- A named local, or a temporary with a number from `k` on and below `k'`. -/
def Var.Recent (k k' : Nat) : Var → Prop
  | .named _ _ => True
  | .temporary _ index => k ≤ index ∧ index < k'

theorem Var.Early.mono {k k' : Nat} {x : Var} (h : x.Early k) (hk : k ≤ k') : x.Early k' := by
  cases x with
  | named scope name => exact h
  | temporary scope index => exact Nat.lt_of_lt_of_le h hk

theorem Var.Recent.mono {k l k' l' : Nat} {x : Var} (h : x.Recent k k') (hk : l ≤ k)
    (hk' : k' ≤ l') : x.Recent l l' := by
  cases x with
  | named scope name => trivial
  | temporary scope index => exact ⟨Nat.le_trans hk h.1, Nat.lt_of_lt_of_le h.2 hk'⟩

theorem Var.Recent.not_early {k k' : Nat} {x : Var} (h : x.Recent k k') : ¬ x.Early k := by
  cases x with
  | named scope name => exact id
  | temporary scope index => exact Nat.not_lt.mpr h.1

/-- Code that reads no temporary from before a mark that still lacks a value, and gives one to every
temporary of its own. -/
def Fills (k : Nat) (is : List Instr) : Prop :=
  ∀ U, (∀ y ∈ U, Var.Early k y) → Initialises U is U

namespace Fills

variable {k l : Nat} {is js : List Instr}

theorem nil (k : Nat) : Fills k [] := fun _ _ => .nil

theorem append (h : Fills k is) (h' : Fills k js) : Fills k (is ++ js) :=
  fun U hU => (h U hU).append (h' U hU)

theorem mono (h : Fills l is) (hk : k ≤ l) : Fills k is :=
  fun U hU => h U fun y hy => (hU y hy).mono hk

/-- An instruction that declares nothing without a value. -/
theorem single {i : Instr} (hi : i.isStraight = true) (hv : ∀ U, i.vacant U ⊆ U)
    (hl : ∀ y ∈ i.loads, ¬ y.Early k) : Fills k [i] := by
  intro U hU
  exact (Initialises.single hi fun y hy hmem => hl y hy (hU y hmem)).weaken (hv U)

/-- An instruction that has nothing to do with locals. -/
theorem idle {i : Instr} (hi : i.isStraight = true) (hv : ∀ U, i.vacant U = U)
    (hl : i.loads = []) : Fills k [i] := by
  apply single hi
  · intro U
    rw [hv]
    exact List.Subset.refl U
  · rw [hl]
    exact fun y hy => nomatch hy

theorem define (c : String) (target : Var) {x : Operand} (hx : ∀ y ∈ x.loads, ¬ y.Early k) :
    Fills k [.define c target (some x)] := by
  apply single rfl
  · exact fun U => List.filter_subset_self _
  · simpa [Instr.loads, Instr.operand?] using hx

theorem store (target : Var) {x : Operand} (hx : ∀ y ∈ x.loads, ¬ y.Early k) :
    Fills k [.store target x] := by
  apply single rfl
  · exact fun U => List.filter_subset_self _
  · simpa [Instr.loads, Instr.operand?] using hx

theorem of_forall (h : ∀ i ∈ is, Fills k [i]) : Fills k is := by
  induction is with
  | nil => exact nil k
  | cons i more ih =>
    obtain ⟨hi, hmore⟩ := List.forall_mem_cons.mp h
    exact hi.append (ih hmore)

theorem branch {x : Operand} (hx : ∀ y ∈ x.loads, ¬ y.Early k) (h : Fills k is)
    (h' : Fills k js) : Fills k [.branch x is js] :=
  fun U hU => .branch (fun y hy hmem => hx y hy (hU y hmem)) (h U hU) (h' U hU)

theorem setRoot (slot : Nat) {x : Operand} (hx : ∀ y ∈ x.loads, ¬ y.Early k) :
    Fills k [.setRoot slot x] := by
  apply single rfl
  · exact fun U => List.Subset.refl U
  · simpa [Instr.loads, Instr.operand?] using hx

theorem eval {x : Operand} (hx : ∀ y ∈ x.loads, ¬ y.Early k) : Fills k [.eval x] := by
  apply single rfl
  · exact fun U => List.Subset.refl U
  · simpa [Instr.loads, Instr.operand?] using hx

/-- A temporary that is declared without a value and gets one in both arms of a branch. -/
theorem assign {s : Nat} {c : String} {x v w : Operand} (hkl : k ≤ l)
    (hx : ∀ y ∈ x.loads, y.Recent k l) (his : Fills (l + 1) is)
    (hv : ∀ y ∈ v.loads, ¬ y.Early (l + 1)) (hjs : Fills (l + 1) js)
    (hw : ∀ y ∈ w.loads, ¬ y.Early (l + 1)) :
    Fills k [.define c (.temporary s l) none,
      .branch x (is ++ [Instr.store (.temporary s l) v])
        (js ++ [Instr.store (.temporary s l) w])] := by
  intro U hU
  have hdefine : Initialises U [.define c (.temporary s l) none] (.temporary s l :: U) :=
    Initialises.single rfl fun y hy => by cases hy
  have hearly : ∀ y ∈ Var.temporary s l :: U, y.Early (l + 1) :=
    List.forall_mem_cons.mpr
      ⟨Nat.lt_succ_self l, fun y hy => (hU y hy).mono (Nat.le_succ_of_le hkl)⟩
  -- Storing the temporary leaves what lacked a value before it was declared.
  have harm : ∀ {is : List Instr} {v : Operand}, Fills (l + 1) is →
      (∀ y ∈ v.loads, ¬ y.Early (l + 1)) →
      Initialises (.temporary s l :: U) (is ++ [Instr.store (.temporary s l) v]) U := by
    intro is v his hv
    have hstore : Initialises (.temporary s l :: U) [.store (.temporary s l) v] _ :=
      Initialises.single rfl fun y hy hmem =>
        hv y (by simpa [Instr.loads, Instr.operand?] using hy) (hearly y hmem)
    refine ((his _ hearly).append hstore).weaken ?_
    intro y hy
    obtain ⟨hmem, hne⟩ := List.mem_filter.mp hy
    exact (List.mem_cons.mp hmem).resolve_left (of_decide_eq_true hne)
  refine hdefine.append (.branch (fun y hy hmem => ?_) (harm his hv) (harm hjs hw))
  have hrecent := hx y hy
  rcases List.mem_cons.mp hmem with rfl | hmem
  · exact Nat.lt_irrefl l hrecent.2
  · exact hrecent.not_early (hU y hmem)

end Fills

end Code

namespace Lower

variable {k : Nat}

theorem fills_prologue (size : Nat) : Fills k (prologue size) := by
  have hframe : Fills k [.frame size] := .idle rfl (fun _ => rfl) rfl
  unfold prologue
  split
  · exact Fills.append (.idle rfl (fun _ => rfl) rfl) hframe
  · exact hframe

theorem fills_clearRoots (ds : List (String × Typed.Expr)) : Fills k (clearRoots ds) := by
  refine .of_forall fun i hi => ?_
  obtain ⟨d, -, hd⟩ := List.mem_filterMap.mp hi
  obtain ⟨slot, -, rfl⟩ := Option.map_eq_some_iff.mp hd
  exact .idle rfl (fun _ => rfl) rfl

theorem fills_setRoot {target : Var} (ht : ∀ y ∈ (Operand.load target).loads, ¬ y.Early k)
    (root? : Option Nat) : Fills k (setRoot root? target) := by
  refine .of_forall fun i hi => ?_
  obtain ⟨slot, -, rfl⟩ := List.mem_map.mp hi
  exact .setRoot slot ht

theorem fills_rightArm (op : BinaryOp) {x : Operand} {code : List Instr}
    (hx : ∀ y ∈ x.loads, ¬ y.Early k) (h : Fills k code) :
    Fills k [.branch x (rightArm op code).1 (rightArm op code).2] := by
  unfold rightArm
  split
  · exact .branch hx h (.nil k)
  · exact .branch hx (.nil k) h

end Lower

/-- Code that fills its temporaries, and a value that is read from named locals and from them. -/
structure Lowered.Fills (x : Lowered) (k k' : Nat) : Prop where
  code : Code.Fills k x.code
  loads : ∀ y ∈ x.value.loads, y.Recent k k'

namespace Lowered.Fills

variable {x : Lowered} {k l k' l' : Nat}

theorem of_loads_nil {value : Operand} (h : value.loads = []) (k k' : Nat) :
    Lowered.Fills ⟨[], value⟩ k k' :=
  ⟨.nil k, by rw [h]; simp⟩

theorem mono (h : x.Fills k k') (hk : l ≤ k) (hk' : k' ≤ l') : x.Fills l l' :=
  ⟨h.code.mono hk, fun y hy => (h.loads y hy).mono hk hk'⟩

theorem not_early (h : x.Fills k k') : ∀ y ∈ x.value.loads, ¬ y.Early k :=
  fun y hy => (h.loads y hy).not_early

/-- A value that is read from the temporary made last. -/
theorem of_temporary {code : List Instr} {b : Builder} (h : Code.Fills k code)
    (hk : k ≤ b.temporaries) :
    Lowered.Fills ⟨code, .load b.temporary.1⟩ k b.temporary.2.temporaries := by
  refine ⟨h, ?_⟩
  rw [Operand.loads, List.forall_mem_singleton]
  exact ⟨hk, Nat.lt_succ_self _⟩

end Lowered.Fills

theorem Builder.not_early_temporary {b : Builder} {k : Nat} (hk : k ≤ b.temporaries) :
    ∀ y ∈ (Operand.load b.temporary.1).loads, ¬ y.Early k := by
  rw [Operand.loads, List.forall_mem_singleton]
  exact Nat.not_lt.mpr hk

namespace Typed.Expr

mutual

theorem lower_fills : ∀ {e : Expr} {b b' : Builder} {x : Lowered}, e.lower b = .ok x b' →
    x.Fills b.temporaries b'.temporaries
  | .integer _ _, b, b', x, h => by
    rw [lower] at h
    obtain ⟨rfl, rfl⟩ := pure_eq_ok.mp h
    exact .of_loads_nil rfl _ _
  | .boolean _ _, b, b', x, h => by
    rw [lower] at h
    obtain ⟨rfl, rfl⟩ := pure_eq_ok.mp h
    exact .of_loads_nil rfl _ _
  | .text _ _ _, b, b', x, h => by
    obtain ⟨rfl, rfl⟩ := lower_text h
    exact .of_loads_nil rfl _ _
  | .unit _, b, b', x, h => by
    rw [lower] at h
    obtain ⟨rfl, rfl⟩ := pure_eq_ok.mp h
    exact .of_loads_nil rfl _ _
  | .name _ z _ origin, b, b', x, h => by
    rw [lower] at h
    obtain ⟨rfl, rfl⟩ := pure_eq_ok.mp h
    cases origin with
    | lexical scope =>
      refine ⟨.nil _, ?_⟩
      rw [Lower.nameOperand, Operand.loads, List.forall_mem_singleton]
      trivial
    | global | builtin => exact .of_loads_nil rfl _ _
  | .unary _ op operand, b, b', x, h => by
    obtain ⟨y, hy, rfl⟩ := lower_unary h
    have hoperand := lower_fills hy
    refine ⟨hoperand.code, ?_⟩
    rw [op.loads_operand]
    exact hoperand.loads
  | .binary _ op left right, b, b', x, h => by
    obtain ⟨l, r, b₁, b₂, hl, hr, hrest⟩ := lower_binary h
    have hT₁ := (lower_emits hl).temporaries
    have hT₂ := (lower_emits hr).temporaries
    have hT := Nat.le_trans hT₁ hT₂
    have hleft := lower_fills hl
    have hright := (lower_fills hr).mono hT₁ (Nat.le_refl _)
    rcases hrest with ⟨-, rfl, c, -, rfl⟩ | ⟨-, rfl, rfl⟩
    · have harm := hright.code.append (.store b₂.temporary.1 hright.not_early)
      have hbranch := Lower.fills_rightArm op (Builder.not_early_temporary hT) harm
      have hdefine := Fills.define c b₂.temporary.1 hleft.not_early
      have hcode := hleft.code.append (hdefine.append hbranch)
      exact .of_temporary hcode hT
    · refine ⟨hleft.code.append hright.code, ?_⟩
      rw [Operand.loads, List.forall_mem_append]
      exact ⟨fun y hy => (hleft.loads y hy).mono (Nat.le_refl _) hT₂, hright.loads⟩
  | .call i callee arguments, b, b', x, h => by
    obtain ⟨code, values, b₁, call, b₂, c, ha, hcallee, -, rfl, rfl⟩ := lower_call h
    have hT := Nat.le_trans (lowerArguments_emits ha).temporaries
      (lowerCallee_emits hcallee).temporaries
    obtain ⟨hcode, hloads⟩ := lowerArguments_fills ha
    have hcall : ∀ y ∈ (call values).loads, ¬ y.Early b.temporaries := by
      rw [(isCalling_lowerCallee hcallee).loads]
      exact fun y hy => (hloads y hy).not_early
    have hroot := Lower.fills_setRoot (Builder.not_early_temporary hT) i.root?
    exact .of_temporary ((hcode.append (.define c b₂.temporary.1 hcall)).append hroot) hT
  | .branch _ condition thenArm elseArm, b, b', x, h => by
    obtain ⟨y, b₁, c, t, b₂, f, hy, -, ht, hfalse, rfl⟩ := lower_branch h
    have hT₁ := (lower_emits hy).temporaries
    have hT₂ : b₁.temporaries + 1 ≤ b₂.temporaries := (lower_emits ht).temporaries
    have hT₃ := (lower_emits hfalse).temporaries
    have hcondition := lower_fills hy
    have hthen : t.Fills (b₁.temporaries + 1) b₂.temporaries := lower_fills ht
    have helse := (lower_fills hfalse).mono hT₂ (Nat.le_refl _)
    have hcode := hcondition.code.append (Fills.assign (s := b₁.procedure) (c := c) hT₁
      hcondition.loads hthen.code hthen.not_early helse.code helse.not_early)
    refine ⟨hcode, ?_⟩
    rw [Operand.loads, List.forall_mem_singleton]
    exact ⟨hT₁, Nat.lt_of_lt_of_le hT₂ hT₃⟩
  | .letIn i scope declarations body, b, b', x, h => by
    obtain ⟨code, b₁, y, b₂, hdecls, hy, hrest⟩ := lower_let h
    have hT₁ := (lowerDeclarations_emits hdecls).temporaries
    have hT₂ := (lower_emits hy).temporaries
    have hT := Nat.le_trans hT₁ hT₂
    have hbody := (lower_fills hy).mono hT₁ (Nat.le_refl _)
    have hboth := (lowerDeclarations_fills hdecls).append hbody.code
    rcases hrest with ⟨-, rfl, rfl⟩ | ⟨slot, c, -, -, rfl, rfl⟩
    · exact ⟨hboth.append (Lower.fills_clearRoots _), hbody.loads⟩
    · have hkeep := (Fills.define c b₂.temporary.1 hbody.not_early).append
        (.setRoot slot (Builder.not_early_temporary hT))
      exact .of_temporary ((hboth.append hkeep).append (Lower.fills_clearRoots _)) hT
  | .block _ body, b, b', x, h => by
    rw [lower] at h
    exact lowerBody_fills h

theorem lowerBody_fills : ∀ {es : List Expr} {b b' : Builder} {x : Lowered},
    lowerBody es b = .ok x b' → x.Fills b.temporaries b'.temporaries
  | [], b, b', x, h => by
    rw [lowerBody] at h
    obtain ⟨rfl, rfl⟩ := pure_eq_ok.mp h
    exact .of_loads_nil rfl _ _
  | [e], b, b', x, h => by
    rw [lowerBody] at h
    exact lower_fills h
  | e :: next :: more, b, b', x, h => by
    obtain ⟨code, b₁, y, hd, hy, rfl⟩ := lowerBody_cons h
    have hT := hd.emits.temporaries
    have hfirst : Fills b.temporaries code := by
      cases e with
      | call info callee arguments =>
        cases hd with
        | call ha hcallee =>
          obtain ⟨hcode, hloads⟩ := lowerArguments_fills ha
          refine hcode.append (.eval ?_)
          rw [(isCalling_lowerCallee hcallee).loads]
          exact fun y hy => (hloads y hy).not_early
        | other he => exact (lower_fills he).code
      | _ =>
        cases hd with
        | other he => exact (lower_fills he).code
    have hmore := (lowerBody_fills hy).mono hT (Nat.le_refl _)
    exact ⟨hfirst.append hmore.code, hmore.loads⟩

theorem lowerArguments_fills : ∀ {es : List Expr} {b b' : Builder} {code : List Instr}
    {values : List Operand}, lowerArguments es b = .ok (code, values) b' →
      Fills b.temporaries code ∧
        ∀ y ∈ loadsOfAll values, y.Recent b.temporaries b'.temporaries
  | [], b, b', code, values, h => by
    rw [lowerArguments] at h
    obtain ⟨hnil, rfl⟩ := pure_eq_ok.mp h
    cases hnil
    exact ⟨.nil _, by simp [loadsOfAll]⟩
  | e :: more, b, b', code, values, h => by
    obtain ⟨y, b₁, code', values', hy, hm, rfl, rfl⟩ := lowerArguments_cons h
    have hT₁ := (lower_emits hy).temporaries
    have hT₂ := (lowerArguments_emits hm).temporaries
    have hfirst := lower_fills hy
    obtain ⟨hcode, hloads⟩ := lowerArguments_fills hm
    refine ⟨hfirst.code.append (hcode.mono hT₁), ?_⟩
    rw [loadsOfAll, List.forall_mem_append]
    exact ⟨fun z hz => (hfirst.loads z hz).mono (Nat.le_refl _) hT₂,
      fun z hz => (hloads z hz).mono hT₁ (Nat.le_refl _)⟩

theorem lowerDeclarations_fills : ∀ {ds : List (String × Expr)} {scope : Nat}
    {seen : List (String × String)} {b b' : Builder} {code : List Instr},
    lowerDeclarations scope seen ds b = .ok code b' → Fills b.temporaries code
  | [], scope, seen, b, b', code, h => by
    rw [lowerDeclarations] at h
    obtain ⟨rfl, rfl⟩ := pure_eq_ok.mp h
    exact .nil _
  | (z, value) :: more, scope, seen, b, b', code, h => by
    obtain ⟨y, b₁, c, i, code', hy, -, hi, hm, rfl⟩ := lowerDeclarations_cons h
    have hvalue := lower_fills hy
    have hone : Fills b.temporaries [i] := by
      rcases hi with rfl | rfl
      · exact .define c _ hvalue.not_early
      · exact .store _ hvalue.not_early
    have hmore := (lowerDeclarations_fills hm).mono (lower_emits hy).temporaries
    exact (hvalue.code.append hone).append hmore

end

end Typed.Expr

namespace Code

variable {G : Bindings Ty} {m : Module} {n n' : Nat}

theorem Fills.initialised {k : Nat} {is js : List Instr} (h : Fills k is)
    (hjs : Initialised js []) : Initialised (is ++ js) [] := by
  refine h [] (fun y hy => nomatch hy) js (fun V hV => ?_) [] (List.Subset.refl [])
  rw [List.subset_nil.mp hV]
  exact hjs

theorem initialised_ret (x : Operand) : Initialised [.ret x] [] := by
  refine .cons (fun _ _ hy => nomatch hy) fun s hs => ?_
  cases hs with
  | next hi => cases hi

/-- Code that compiles with named parameters uses only its own temporaries. -/
theorem wellScoped_of_checks {result? : Option String} {Γ Γ' : Decls} {is : List Instr} {s : Nat}
    (h : ChecksAll m result? is Γ Γ') (hu : Unique s (Γ.map (·.1)) is)
    (hΓ : ∀ x ∈ Γ.map (·.1), x.index? = none) (hi : Initialised is []) :
    WellScoped s (Γ.map (·.1)) is := by
  refine ⟨h.scoped, hu.nodup, fun scope index hmem => ?_, hi⟩
  rcases h.scoped.mentioned _ hmem with hmem | hmem
  · have hnone := hΓ _ hmem
    cases hnone
  · exact hu.own scope index hmem

theorem Procedure.Implements.wellScoped (hm : m.Serves G) {name : Name}
    {P : Typed.Procedure Typed.Expr} {q : Procedure} (hq : q.Implements m name P)
    (hf : ProcedureFits G P n n') :
    WellScoped q.scope (q.prototype.parameters.map (·.target)) q.body := by
  obtain ⟨Γ, hchecks⟩ := hq.checks hm hf
  have hunique := hq.unique hf
  rw [← Prototype.map_fst_decls] at hunique ⊢
  refine wellScoped_of_checks hchecks hunique (fun x hx => ?_) ?_
  · rw [Prototype.map_fst_decls] at hx
    obtain ⟨parameter, -, rfl⟩ := List.mem_map.mp hx
    rfl
  · cases hq with
    | intro hdecl hb hx hbefore =>
      have hcode := (Typed.Expr.lower_fills hx).code
      exact ((Lower.fills_prologue P.rootCount).append hcode).initialised (initialised_ret _)

theorem Entry.Implements.wellScoped (hm : m.Serves G) {P : Typed.Procedure Typed.Expr} {e : Entry}
    (he : e.Implements m P) (hps : P.parameters = []) (hf : ProcedureFits G P n n') :
    WellScoped e.scope [] e.body := by
  obtain ⟨Γ, hchecks⟩ := he.checks hm hps hf
  refine wellScoped_of_checks hchecks (he.unique hf) (fun x hx => nomatch hx) ?_
  cases he with
  | intro hb hx hbefore =>
    have hcode := (Typed.Expr.lower_fills hx).code
    have hall := ((Lower.fills_prologue P.rootCount).append hcode).initialised (Initialised.nil [])
    rwa [List.append_nil] at hall

end Code

/-- The code of a checked module is well scoped. -/
theorem Typed.Module.lower_wellScoped {source : RootedC.Module} {tm : Typed.Module}
    {m : Code.Module} (hc : source.check = .ok tm) (hl : tm.lower = .ok m) :
    (∀ q ∈ m.procedures,
      WellScoped q.scope (q.prototype.parameters.map (·.target)) q.body) ∧
    (∀ e ∈ m.entryPoint?, WellScoped e.scope [] e.body) ∧
    m.allIndices.Nodup := by
  obtain ⟨G, -, hf, hs⟩ := signatures_of_check hc
  have hi := implements_of_lower hl hf.literals_constants
  have hm := hi.serves (prototypes_perm hl) hs
  refine ⟨fun q hq => ?_, fun e he => ?_, hf.nodup_indices hl⟩
  · obtain ⟨name, P, n, n', himpl, hP⟩ := hi.exists_procedure hf hq
    exact himpl.wellScoped hm hP
  · obtain ⟨P, n, n', himpl, hps, hP⟩ := hi.exists_entry hf he
    exact himpl.wellScoped hm hps hP

/-- `proc nearest(a: i32, b: i32) -> i32 { if a < b { a } else { proc(x) { -x }(b) } }` and an entry
that prints `nearest(1, 2)`. -/
def Module.nearest : Module :=
  let s : Span := .empty .nowhere
  let i32 : TypeExpr := .name "i32" .nowhere
  let negated : Expr := .call (.procedure ⟨[⟨"x", none, s⟩], none,
    .unary ⟨.dash, "-", s⟩ (.name "x" s) s, s⟩) [.name "b" s] s
  let body : Expr := .branch (.binary (.name "a" s) ⟨.less, "<", s⟩ (.name "b" s) s) (.name "a" s)
    (some negated) s
  ⟨[.procedure "nearest" ⟨[⟨"a", some i32, s⟩, ⟨"b", some i32, s⟩], some i32, body, s⟩ s,
    .entry (.call (.name "println_i32" s)
      [.call (.name "nearest" s) [.number 1 s, .number 2 s] s] s) s], s⟩

/-- The temporary of the branch is declared without a value, stored in both arms and returned. -/
theorem Typed.Module.nearest_wellScoped : ∃ tm m q, Module.nearest.check = .ok tm ∧
    tm.lower = .ok m ∧ q ∈ m.procedures ∧
    q.body = [.frame 0, .define "int32_t" (.temporary 1 0) none,
      .branch (.binary .lt (.load (.named 1 "a")) (.load (.named 1 "b")))
        [.store (.temporary 1 0) (.load (.named 1 "a"))]
        [.define "int32_t" (.temporary 1 1)
          (some (.callProcedure (.literal 3) [.load (.named 1 "b")])),
          .store (.temporary 1 0) (.load (.temporary 1 1))],
      .ret (.load (.temporary 1 0))] ∧
    WellScoped q.scope (q.prototype.parameters.map (·.target)) q.body ∧ m.allIndices.Nodup := by
  have h : (Module.nearest.check.toOption.bind fun tm => tm.lower.toOption.bind fun m =>
      m.procedures[1]?.map (·.body)) = some [.frame 0, .define "int32_t" (.temporary 1 0) none,
        .branch (.binary .lt (.load (.named 1 "a")) (.load (.named 1 "b")))
          [.store (.temporary 1 0) (.load (.named 1 "a"))]
          [.define "int32_t" (.temporary 1 1)
            (some (.callProcedure (.literal 3) [.load (.named 1 "b")])),
            .store (.temporary 1 0) (.load (.temporary 1 1))],
        .ret (.load (.temporary 1 0))] := by
    cbv
  obtain ⟨tm, hc, h⟩ := Option.bind_eq_some_iff.mp h
  obtain ⟨m, hl, h⟩ := Option.bind_eq_some_iff.mp h
  obtain ⟨q, hq, hbody⟩ := Option.map_eq_some_iff.mp h
  rw [toOption_eq_some] at hc hl
  have hmem : q ∈ m.procedures := List.mem_of_getElem? hq
  obtain ⟨hprocedures, -, hnodup⟩ := lower_wellScoped hc hl
  exact ⟨tm, m, q, hc, hl, hmem, hbody, hprocedures q hmem, hnodup⟩

end RootedC
