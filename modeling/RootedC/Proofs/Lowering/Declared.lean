import RootedC.Proofs.Lowering.Checked
import RootedC.Proofs.Semantics.Static

/-!
The locals that generated code declares. Named ones belong to the scopes of the expression,
temporaries to the procedure that is being lowered; no local is declared twice in a body and no
number of a temporary twice in a module, although literals take numbers in between.
-/
namespace RootedC

open Code Lexical

namespace Code

/-- A local of a scope from `n` on and below `n'`, or a temporary of a procedure with a number from
`k` on and below `k'`. -/
def Var.Between (procedure n n' k k' : Nat) : Var → Prop
  | .named scope _ => n ≤ scope ∧ scope < n'
  | .temporary scope index => scope = procedure ∧ k ≤ index ∧ index < k'

theorem Var.Between.mono {s n m n' m' k l k' l' : Nat} {x : Var} (h : x.Between s n n' k k')
    (hn : m ≤ n) (hn' : n' ≤ m') (hk : l ≤ k) (hk' : k' ≤ l') : x.Between s m m' l l' := by
  cases x with
  | named scope name => exact ⟨Nat.le_trans hn h.1, Nat.lt_of_lt_of_le h.2 hn'⟩
  | temporary scope index =>
    exact ⟨h.1, Nat.le_trans hk h.2.1, Nat.lt_of_lt_of_le h.2.2 hk'⟩

/-- What lies between two places does not lie behind the second one. -/
theorem Var.Between.ne {s n m n' k l k' : Nat} {x y : Var} (hx : x.Between s n m k l)
    (hy : y.Between s m n' l k') : x ≠ y := by
  rintro rfl
  cases x with
  | named scope name => exact absurd hx.2 (Nat.not_lt.mpr hy.1)
  | temporary scope index => exact absurd hx.2.2 (Nat.not_lt.mpr hy.2.1)

theorem declaredIn_append (is js : List Instr) :
    declaredIn (is ++ js) = declaredIn is ++ declaredIn js := by
  induction is with
  | nil => rfl
  | cons i more ih => rw [List.cons_append, declaredIn, declaredIn, ih, List.append_assoc]

theorem declaredIn_singleton (i : Instr) : declaredIn [i] = i.declared := by
  rw [declaredIn, declaredIn, List.append_nil]

theorem declaredIn_eq_nil {is : List Instr} (h : ∀ i ∈ is, i.declared = []) :
    declaredIn is = [] := by
  induction is with
  | nil => rfl
  | cons i more ih =>
    obtain ⟨hi, hmore⟩ := List.forall_mem_cons.mp h
    rw [declaredIn, hi, ih hmore, List.nil_append]

end Code

namespace Lower

theorem declaredIn_prologue (size : Nat) : declaredIn (prologue size) = [] := by
  unfold prologue
  split <;> rfl

theorem declaredIn_clearRoots (ds : List (String × Typed.Expr)) :
    declaredIn (clearRoots ds) = [] := by
  refine declaredIn_eq_nil fun i hi => ?_
  obtain ⟨d, -, hd⟩ := List.mem_filterMap.mp hi
  obtain ⟨slot, -, rfl⟩ := Option.map_eq_some_iff.mp hd
  rw [Instr.declared]

theorem declaredIn_setRoot (root? : Option Nat) (target : Var) :
    declaredIn (setRoot root? target) = [] := by
  cases root? <;> rfl

theorem declared_rightArm (op : BinaryOp) (x : Operand) (code : List Instr) :
    (Instr.branch x (rightArm op code).1 (rightArm op code).2).declared = declaredIn code := by
  rw [Instr.declared]
  unfold rightArm
  split
  · rw [declaredIn, List.append_nil]
  · rw [declaredIn, List.nil_append]

theorem declaredIn_body (size : Nat) (x : Lowered) :
    declaredIn (prologue size ++ x.code ++ [Instr.ret x.value]) = declaredIn x.code := by
  rw [declaredIn_append, declaredIn_append, declaredIn_prologue, declaredIn_singleton,
    Instr.declared, List.nil_append, List.append_nil]

end Lower

/-- Numbers of temporaries that were handed out between two builders, those that procedures of the
module have taken left out. -/
structure Builder.Numbers (b b' : Builder) (ks : List Nat) : Prop where
  le : b.temporaries ≤ b'.temporaries
  count_le : ∀ i, ks.count i + b'.module.procedureIndices.count i ≤
    b.module.procedureIndices.count i + if b.temporaries ≤ i ∧ i < b'.temporaries then 1 else 0

namespace Builder.Numbers

variable {b b' b'' : Builder} {ks ls : List Nat}

theorem of_eq (ht : b'.temporaries = b.temporaries)
    (hp : b'.module.procedures = b.module.procedures) : b.Numbers b' [] := by
  refine ⟨Nat.le_of_eq ht.symm, fun i => ?_⟩
  rw [Module.procedureIndices, hp, List.count_nil, Nat.zero_add]
  exact Nat.le_add_right _ _

theorem trans (h : b.Numbers b' ks) (h' : b'.Numbers b'' ls) : b.Numbers b'' (ks ++ ls) := by
  refine ⟨Nat.le_trans h.le h'.le, fun i => ?_⟩
  have hk := h.count_le i
  have hl := h'.count_le i
  have hle := h.le
  have hle' := h'.le
  rw [List.count_append]
  split at hk <;> split at hl <;> split <;> omega

theorem after (h' : b'.Numbers b'' []) (h : b.Numbers b' []) : b.Numbers b'' [] := h.trans h'

theorem temporary (b : Builder) : b.Numbers b.temporary.2 [b.temporaries] := by
  refine ⟨Nat.le_succ _, fun i => ?_⟩
  have hsame : b.temporary.2.module.procedureIndices = b.module.procedureIndices := rfl
  have hnext : b.temporary.2.temporaries = b.temporaries + 1 := rfl
  rw [hsame, hnext, List.count_singleton]
  split
  · have hi : b.temporaries = i := eq_of_beq ‹_›
    exact Nat.le_of_eq (by rw [if_pos (by omega), Nat.add_comm])
  · rw [Nat.zero_add]
    exact Nat.le_add_right _ _

theorem forget (h : b.Numbers b' ks) : b.Numbers b' [] := by
  refine ⟨h.le, fun i => ?_⟩
  rw [List.count_nil, Nat.zero_add]
  exact Nat.le_trans (Nat.le_add_left _ _) (h.count_le i)

theorem perm (h : b.Numbers b' ks) (hp : ks.Perm ls) : b.Numbers b' ls := by
  refine ⟨h.le, fun i => ?_⟩
  rw [← hp.count_eq]
  exact h.count_le i

/-- Only temporaries and procedures matter. -/
theorem congr {c d : Builder} (h : b.Numbers b' ks) (ht : c.temporaries = b.temporaries)
    (hp : c.module.procedures = b.module.procedures) (ht' : d.temporaries = b'.temporaries)
    (hp' : d.module.procedures = b'.module.procedures) : c.Numbers d ks := by
  refine ⟨by rw [ht, ht']; exact h.le, fun i => ?_⟩
  have hcount := h.count_le i
  unfold Module.procedureIndices at hcount ⊢
  rw [hp, hp', ht, ht']
  exact hcount

/-- The temporaries of a body are those of the procedure that it becomes. -/
theorem add_procedure {q : Code.Procedure} (h : b.Numbers b' (indices q.body)) :
    b.Numbers { b' with module := { b'.module with procedures := b'.module.procedures ++ [q] } }
      [] := by
  refine ⟨h.le, fun i => ?_⟩
  have hcount := h.count_le i
  unfold Module.procedureIndices at hcount ⊢
  rw [List.flatMap_append, List.flatMap_singleton, List.count_append, List.count_nil, Nat.zero_add,
    Nat.add_comm]
  exact hcount

end Builder.Numbers

/-- The locals that are declared while scopes from `n` on and below `n'` are lowered. -/
structure Builder.Declares (b b' : Builder) (n n' : Nat) (xs : List Var) : Prop where
  procedure : b'.procedure = b.procedure
  le : n ≤ n'
  bounds : ∀ x ∈ xs, x.Between b.procedure n n' b.temporaries b'.temporaries
  nodup : xs.Nodup
  numbers : b.Numbers b' (xs.filterMap Var.index?)

namespace Builder.Declares

variable {b b' b'' : Builder} {n m n' : Nat} {xs ys : List Var}

theorem of_numbers (h : b.Numbers b' []) (hp : b'.procedure = b.procedure) (n : Nat) :
    b.Declares b' n n [] :=
  ⟨hp, Nat.le_refl n, by simp, by simp, h⟩

theorem refl (b : Builder) (n : Nat) : b.Declares b n n [] := .of_numbers (.of_eq rfl rfl) rfl n

theorem trans (h : b.Declares b' n m xs) (h' : b'.Declares b'' m n' ys) :
    b.Declares b'' n n' (xs ++ ys) := by
  have hbounds : ∀ y ∈ ys, y.Between b.procedure m n' b'.temporaries b''.temporaries := by
    rw [← h.procedure]
    exact h'.bounds
  refine ⟨h'.procedure.trans h.procedure, Nat.le_trans h.le h'.le, ?_, ?_, ?_⟩
  · intro x hx
    rcases List.mem_append.mp hx with hx | hx
    · exact (h.bounds x hx).mono (Nat.le_refl _) h'.le (Nat.le_refl _) h'.numbers.le
    · exact (hbounds x hx).mono h.le (Nat.le_refl _) h.numbers.le (Nat.le_refl _)
  · exact List.nodup_append.mpr
      ⟨h.nodup, h'.nodup, fun x hx y hy => (h.bounds x hx).ne (hbounds y hy)⟩
  · rw [List.filterMap_append]
    exact h.numbers.trans h'.numbers

theorem temporary (b : Builder) (n : Nat) : b.Declares b.temporary.2 n n [b.temporary.1] := by
  refine ⟨rfl, Nat.le_refl n, ?_, List.nodup_singleton _, .temporary b⟩
  rw [List.forall_mem_singleton]
  exact ⟨rfl, Nat.le_refl _, Nat.lt_succ_self _⟩

/-- Names of one scope. -/
theorem names (b : Builder) (n : Nat) {zs : List String} (hz : zs.Nodup) :
    b.Declares b n (n + 1) (zs.map (.named n)) := by
  have hnone : (zs.map (Var.named n)).filterMap Var.index? = [] := by
    rw [List.filterMap_map]
    exact List.filterMap_eq_nil_iff.mpr fun _ _ => rfl
  refine ⟨rfl, Nat.le_succ n, ?_, hz.map fun _ _ h => (Var.named.inj h).2, ?_⟩
  · intro x hx
    obtain ⟨z, -, rfl⟩ := List.mem_map.mp hx
    exact ⟨Nat.le_refl n, Nat.lt_succ_self n⟩
  · rw [hnone]
    exact .of_eq rfl rfl

theorem perm (h : b.Declares b' n n' xs) (hp : xs.Perm ys) : b.Declares b' n n' ys :=
  ⟨h.procedure, h.le, fun y hy => h.bounds y (hp.mem_iff.mpr hy), hp.nodup_iff.mp h.nodup,
    h.numbers.perm (hp.filterMap _)⟩

theorem widen (h : b.Declares b' n n' xs) (hle : m ≤ n) : b.Declares b' m n' xs :=
  ⟨h.procedure, Nat.le_trans hle h.le, fun x hx =>
    (h.bounds x hx).mono hle (Nat.le_refl _) (Nat.le_refl _) (Nat.le_refl _), h.nodup, h.numbers⟩

end Builder.Declares

theorem Code.Module.procedures_intern (m : Code.Module) (raw : String) (length : Nat) :
    (m.intern raw length).2.procedures = m.procedures := by
  rw [Code.Module.intern_eq]

namespace Typed.Expr

variable {G : Bindings Ty}

/-- A literal takes numbers for its temporaries, and declares nothing where it is called. -/
theorem numbers_literal {P : Procedure Expr} {b b' : Builder} {n : Nat}
    {call : List Operand → Operand} (h : lowerCallee (.literal P) b = .ok call b')
    (hbody : ∀ x b₁ b₂, P.body.lower b₁ = .ok x b₂ →
      b₁.Declares b₂ (P.scope + 1) n (declaredIn x.code)) : b.Numbers b' [] := by
  obtain ⟨p, b₁, x, b₂, hp, hx, rfl, -⟩ := lowerCallee_literal h
  obtain ⟨rfl, -⟩ := Lower.prototype_eq_ok hp
  have hnumbers := (hbody _ _ _ hx).numbers
  rw [← Lower.declaredIn_body P.rootCount x] at hnumbers
  have hadded := Builder.Numbers.add_procedure (q := ⟨p, P.scope, _⟩) hnumbers
  exact hadded.congr rfl rfl rfl rfl

mutual

theorem lower_declares : ∀ {e : Expr} {b b' : Builder} {x : Lowered} {fs : List Frame}
    {p q : Place}, e.lower b = .ok x b' → Fits G fs e p q →
      b.Declares b' p.scope q.scope (declaredIn x.code)
  | .integer _ _, b, b', x, fs, p, q, h, hf => by
    rw [lower] at h
    obtain ⟨rfl, rfl⟩ := pure_eq_ok.mp h
    rw [hf.2.2]
    exact .refl _ _
  | .boolean _ _, b, b', x, fs, p, q, h, hf => by
    rw [lower] at h
    obtain ⟨rfl, rfl⟩ := pure_eq_ok.mp h
    rw [hf.2.2]
    exact .refl _ _
  | .text _ raw length, b, b', x, fs, p, q, h, hf => by
    obtain ⟨rfl, rfl⟩ := lower_text h
    have hsame := b.module.procedures_intern raw length
    have hnumbers : b.Numbers { b with module := (b.module.intern raw length).2 } [] :=
      .of_eq rfl hsame
    rw [hf.2.2.2]
    exact .of_numbers hnumbers rfl _
  | .unit _, b, b', x, fs, p, q, h, hf => by
    rw [lower] at h
    obtain ⟨rfl, rfl⟩ := pure_eq_ok.mp h
    rw [hf.2.2]
    exact .refl _ _
  | .name _ _ _ _, b, b', x, fs, p, q, h, hf => by
    rw [lower] at h
    obtain ⟨rfl, rfl⟩ := pure_eq_ok.mp h
    rw [hf.2.2.2]
    exact .refl _ _
  | .unary _ _ operand, b, b', x, fs, p, q, h, hf => by
    obtain ⟨y, hy, rfl⟩ := lower_unary h
    rw [Fits] at hf
    have hoperand := lower_declares hy hf.2.2.2
    exact hoperand
  | .binary _ op left right, b, b', x, fs, p, q, h, hf => by
    obtain ⟨l, r, b₁, b₂, hl, hr, hrest⟩ := lower_binary h
    rw [Fits] at hf
    obtain ⟨-, -, -, -, m, hfl, hfr⟩ := hf
    have hleft := lower_declares hl hfl
    have hright := lower_declares hr hfr
    rcases hrest with ⟨-, rfl, c, -, rfl⟩ | ⟨-, rfl, rfl⟩
    · have hall := hleft.trans (hright.trans (.temporary b₂ q.scope))
      refine hall.perm ?_
      rw [declaredIn_append, declaredIn, declaredIn_singleton, Lower.declared_rightArm,
        declaredIn_append, declaredIn_singleton, Instr.declared, Instr.declared, List.append_nil]
      exact (List.perm_append_comm).append_left _
    · rw [declaredIn_append]
      exact hleft.trans hright
  | .call i callee arguments, b, b', x, fs, p, q, h, hf => by
    obtain ⟨code, values, b₁, call, b₂, c, ha, hcallee, -, rfl, rfl⟩ := lower_call h
    rw [Fits] at hf
    obtain ⟨tys, m, m', hfc, hfa, hroots⟩ := hf
    have harguments := lowerArguments_declares ha hfa
    have hcalled := lowerCallee_declares hcallee hfc m'.scope
    have hall := (harguments.trans hcalled).trans (.temporary b₂ m'.scope)
    rw [declaredIn_append, declaredIn_append, Lower.declaredIn_setRoot, declaredIn_singleton,
      Instr.declared, List.append_nil, hroots.scope_eq]
    rw [List.append_nil] at hall
    exact hall.widen hfc.within.le
  | .branch _ condition thenArm elseArm, b, b', x, fs, p, q, h, hf => by
    obtain ⟨y, b₁, c, t, b₂, f, hy, -, ht, hfalse, rfl⟩ := lower_branch h
    rw [Fits] at hf
    obtain ⟨-, -, -, -, m, m', hfc, hft, hff⟩ := hf
    have harms := (lower_declares ht hft).trans (lower_declares hfalse hff)
    have hall := (lower_declares hy hfc).trans ((Builder.Declares.temporary b₁ m.scope).trans harms)
    simpa [declaredIn_append, declaredIn, Instr.declared] using hall
  | .letIn i scope declarations body, b, b', x, fs, p, q, h, hf => by
    obtain ⟨code, b₁, y, b₂, hdecls, hy, hrest⟩ := lower_let h
    rw [Fits] at hf
    obtain ⟨rfl, -, fs', m, m', hfd, hfx, hroots⟩ := hf
    obtain ⟨zs, ys, hz, -, hperm, hys⟩ := lowerDeclarations_declares hdecls hfd
    have hcode : b.Declares b₁ p.scope m.scope (declaredIn code) :=
      ((Builder.Declares.names b p.scope hz).trans hys).perm hperm.symm
    have hboth := hcode.trans (lower_declares hy hfx)
    rw [hroots.scope_eq]
    rcases hrest with ⟨-, rfl, rfl⟩ | ⟨slot, c, -, -, rfl, rfl⟩
    · rw [declaredIn_append, declaredIn_append, Lower.declaredIn_clearRoots, List.append_nil]
      exact hboth
    · have hall := hboth.trans (.temporary b₂ m'.scope)
      rw [declaredIn_append, declaredIn_append, declaredIn_append, Lower.declaredIn_clearRoots,
        List.append_nil]
      exact hall
  | .block _ body, b, b', x, fs, p, q, h, hf => by
    rw [lower] at h
    rw [Fits] at hf
    exact lowerBody_declares h hf.2.2

theorem lowerBody_declares : ∀ {es : List Expr} {b b' : Builder} {x : Lowered}
    {fs : List Frame} {p q : Place}, lowerBody es b = .ok x b' → AllFit G fs es p q →
      b.Declares b' p.scope q.scope (declaredIn x.code)
  | [], b, b', x, fs, p, q, h, hf => by
    rw [lowerBody] at h
    obtain ⟨rfl, rfl⟩ := pure_eq_ok.mp h
    rw [AllFit] at hf
    rw [hf]
    exact .refl _ _
  | [e], b, b', x, fs, p, q, h, hf => by
    rw [lowerBody] at h
    rw [AllFit] at hf
    obtain ⟨m, hfe, hm⟩ := hf
    rw [AllFit] at hm
    rw [hm]
    exact lower_declares h hfe
  | e :: next :: more, b, b', x, fs, p, q, h, hf => by
    obtain ⟨code, b₁, y, hd, hy, rfl⟩ := lowerBody_cons h
    rw [AllFit] at hf
    obtain ⟨m, hfe, hfm⟩ := hf
    have hfirst : b.Declares b₁ p.scope m.scope (declaredIn code) := by
      cases e with
      | call info callee arguments =>
        cases hd with
        | call ha hcallee =>
          rw [Fits] at hfe
          obtain ⟨tys, n, n', hfc, hfa, hroots⟩ := hfe
          have hall := (lowerArguments_declares ha hfa).trans
            (lowerCallee_declares hcallee hfc n'.scope)
          rw [declaredIn_append, declaredIn_singleton, Instr.declared, hroots.scope_eq]
          exact hall.widen hfc.within.le
        | other he => exact lower_declares he hfe
      | _ =>
        cases hd with
        | other he => exact lower_declares he hfe
    rw [declaredIn_append]
    exact hfirst.trans (lowerBody_declares hy hfm)

theorem lowerArguments_declares : ∀ {es : List Expr} {b b' : Builder} {code : List Instr}
    {values : List Operand} {fs : List Frame} {tys : List Ty} {p q : Place},
    lowerArguments es b = .ok (code, values) b' → ArgumentsFit G fs es tys p q →
      b.Declares b' p.scope q.scope (declaredIn code)
  | [], b, b', code, values, fs, tys, p, q, h, hf => by
    rw [lowerArguments] at h
    obtain ⟨hnil, rfl⟩ := pure_eq_ok.mp h
    cases hnil
    cases tys with
    | nil =>
      rw [ArgumentsFit] at hf
      rw [hf]
      exact .refl _ _
    | cons ty tys => exact hf.elim
  | e :: more, b, b', code, values, fs, tys, p, q, h, hf => by
    obtain ⟨y, b₁, code', values', hy, hm, rfl, -⟩ := lowerArguments_cons h
    cases tys with
    | nil => exact hf.elim
    | cons ty tys =>
      rw [ArgumentsFit] at hf
      obtain ⟨-, m, hfe, hfm⟩ := hf
      rw [declaredIn_append]
      exact (lower_declares hy hfe).trans (lowerArguments_declares hm hfm)

theorem lowerCallee_declares : ∀ {c : Callee Expr} {b b' : Builder}
    {f : List Operand → Operand} {fs : List Frame} {ty : Ty} {p q : Place},
    lowerCallee c b = .ok f b' → CalleeFits G fs c ty p q → ∀ n, b.Declares b' n n []
  | .builtin _, b, b', f, fs, ty, p, q, h, hf, n => by
    rw [lowerCallee] at h
    obtain ⟨-, rfl⟩ := pure_eq_ok.mp h
    exact .refl _ _
  | .global _, b, b', f, fs, ty, p, q, h, hf, n => by
    rw [lowerCallee] at h
    obtain ⟨-, rfl⟩ := pure_eq_ok.mp h
    exact .refl _ _
  | .literal ⟨scope, parameters, result, body, size, span⟩, b, b', f, fs, ty, p, q, h, hf,
      n => by
    obtain ⟨-, -, hP⟩ := calleeFits_literal.mp hf
    have hbody := hP.body
    have hnumbers := numbers_literal h fun _ _ _ hx => lower_declares hx hbody
    exact .of_numbers hnumbers (lowerCallee_emits h).procedure n

/-- Declarations of a let declare names that were not seen before, besides what their values
declare. -/
theorem lowerDeclarations_declares : ∀ {ds : List (String × Expr)} {scope : Nat}
    {seen : List (String × String)} {b b' : Builder} {code : List Instr} {fs fs' : List Frame}
    {p q : Place}, lowerDeclarations scope seen ds b = .ok code b' →
      DeclarationsFit G scope ds fs fs' p q →
      ∃ (zs : List String) (ys : List Var), zs.Nodup ∧ (∀ z ∈ zs, seen.lookup z = none) ∧
        (declaredIn code).Perm (zs.map (.named scope) ++ ys) ∧
        b.Declares b' p.scope q.scope ys
  | [], scope, seen, b, b', code, fs, fs', p, q, h, hf => by
    rw [lowerDeclarations] at h
    obtain ⟨rfl, rfl⟩ := pure_eq_ok.mp h
    rw [DeclarationsFit] at hf
    rw [hf.2]
    exact ⟨[], [], .nil, by simp, .nil, .refl _ _⟩
  | (z, value) :: more, scope, seen, b, b', code, fs, fs', p, q, h, hf => by
    obtain ⟨y, b₁, c, i, code', hy, -, hi, hm, rfl⟩ := lowerDeclarations_cons_seen h
    rw [DeclarationsFit] at hf
    obtain ⟨m, hfv, hfm⟩ := hf
    obtain ⟨zs, ys, hz, hseen, hperm, hys⟩ := lowerDeclarations_declares hm hfm
    have hall := (lower_declares hy hfv).trans hys
    have hnew : z ∉ zs ∧ ∀ z' ∈ zs, seen.lookup z' = none := by
      refine ⟨fun hz => ?_, fun z' hz' => ?_⟩
      · have hnone := hseen z hz
        rw [List.lookup_cons_self] at hnone
        cases hnone
      · have hnone := hseen z' hz'
        rw [List.lookup_cons] at hnone
        split at hnone
        · cases hnone
        · exact hnone
    rw [declaredIn_append, declaredIn_append, declaredIn_singleton]
    rcases hi with ⟨hz', rfl⟩ | ⟨-, rfl⟩
    · refine ⟨z :: zs, _, List.nodup_cons.mpr ⟨hnew.1, hz⟩,
        List.forall_mem_cons.mpr ⟨hz', hnew.2⟩, ?_, hall⟩
      refine List.perm_iff_count.mpr fun v => ?_
      have hcount := List.perm_iff_count.mp hperm v
      simp only [Instr.declared, List.map_cons, List.count_append, List.count_cons,
        List.count_nil] at hcount ⊢
      omega
    · refine ⟨zs, _, hz, hnew.2, ?_, hall⟩
      refine List.perm_iff_count.mpr fun v => ?_
      have hcount := List.perm_iff_count.mp hperm v
      simp only [Instr.declared, List.count_append, List.count_nil] at hcount ⊢
      omega

end

end Typed.Expr

namespace Lower

open Typed.Expr

variable {G : Bindings Ty} {b b' : Builder} {u : Unit}

theorem constants_numbers {cs : List Typed.Constant} (h : constants cs b = .ok u b')
    (hcs : ∀ c ∈ cs, ∃ e, constantValue? e = some c.value) : b.Numbers b' [] := by
  induction cs generalizing b with
  | nil =>
    obtain ⟨-, rfl⟩ := pure_eq_ok.mp h
    exact .of_eq rfl rfl
  | cons c more ih =>
    obtain ⟨⟨e, he⟩, hmore⟩ := List.forall_mem_cons.mp hcs
    rw [constants, bind_eq_ok] at h
    obtain ⟨_, b₁, hone, h⟩ := h
    obtain ⟨x, b₂, ty, hx, -, rfl⟩ := constant_eq_ok hone
    have hvalue := (lower_declares hx (fits_of_constantValue he [] [] ⟨0, 0⟩)).numbers.forget
    refine (ih h hmore).after ?_
    exact hvalue.congr rfl rfl rfl rfl

theorem procedures_numbers {ps : List (Code.Prototype × Typed.Procedure Typed.Expr)}
    (h : procedures ps b = .ok u b') (hps : ∀ p ∈ ps, ∃ n n', ProcedureFits G p.2 n n') :
    b.Numbers b' [] := by
  induction ps generalizing b with
  | nil =>
    obtain ⟨-, rfl⟩ := pure_eq_ok.mp h
    exact .of_eq rfl rfl
  | cons p more ih =>
    obtain ⟨⟨n, n', hf⟩, hmore⟩ := List.forall_mem_cons.mp hps
    rw [procedures, bind_eq_ok] at h
    obtain ⟨_, b₁, hone, h⟩ := h
    obtain ⟨x, b₂, hx, rfl⟩ := procedure_eq_ok hone
    have hbody := (lower_declares hx hf.body).numbers
    rw [← declaredIn_body p.2.rootCount x] at hbody
    have hadded := Builder.Numbers.add_procedure (q := ⟨p.1, p.2.scope, _⟩) hbody
    refine (ih h hmore).after ?_
    exact hadded.congr rfl rfl rfl rfl

end Lower

theorem Code.Module.Implements.entryPoint?_eq_none {tm : Typed.Module} {m : Code.Module}
    (hi : m.Implements tm) (h : tm.entryPoint? = none) : m.entryPoint? = none := by
  have hrel := hi.entryPoint?
  rw [h] at hrel
  cases he : m.entryPoint? with
  | none => rfl
  | some e =>
    rw [he] at hrel
    cases hrel

/-- No number is given to two temporaries of a module. -/
theorem Lexical.ModuleFits.nodup_indices {G : Bindings Ty} {tm : Typed.Module} {m : Code.Module}
    (hf : ModuleFits G tm) (h : tm.lower = .ok m) : m.allIndices.Nodup := by
  have hi := Typed.Module.implements_of_lower h hf.literals_constants
  obtain ⟨ps, b₁, b₂, b₃, b, hps, hcs, hprocs, hnone, hsome, rfl⟩ := Typed.Module.lower_eq_ok h
  obtain ⟨-, hp₁, -⟩ := Lower.prototypes_eq_ok hps
  have hbodies : b₁.Numbers b₃ [] :=
    (Lower.constants_numbers hcs fun c hc => (hf.constants c hc).2).trans
      (Lower.procedures_numbers hprocs fun p hp => by
        obtain ⟨r, hr, heq⟩ := List.mem_map.mp (List.of_mem_zip hp).2
        rw [← heq]
        exact hf.units _ (Typed.Module.user_mem_units hr))
  have hall : ∃ ks, b.module.allIndices = b.module.procedureIndices ++ ks ∧ b₁.Numbers b ks := by
    cases hentry : tm.entryPoint? with
    | none =>
      refine ⟨[], ?_, ?_⟩
      · rw [Code.Module.allIndices, hi.entryPoint?_eq_none hentry]
        rfl
      · rw [hnone hentry]
        exact hbodies
    | some P =>
      obtain ⟨-, n, n', hP⟩ := hf.entryPoint P hentry
      obtain ⟨x, inner, hx, rfl⟩ := Lower.entry_eq_ok (hsome P hentry)
      have hbody := (Typed.Expr.lower_declares hx hP.body).numbers
      refine ⟨Code.indices x.code, ?_, hbodies.trans (hbody.congr rfl rfl rfl rfl)⟩
      rw [Code.Module.allIndices, Option.toList_some, List.flatMap_singleton, Code.indices,
        declaredIn_append, Lower.declaredIn_prologue, List.nil_append]
      rfl
  obtain ⟨ks, heq, hnumbers⟩ := hall
  -- The numbering starts in a module without procedures, so that no number counts twice.
  have hstart : b₁.module.procedureIndices = [] := by
    rw [Code.Module.procedureIndices, hp₁]
    rfl
  refine List.nodup_iff_count_le_one.mpr fun i => ?_
  have hcount := hnumbers.count_le i
  rw [hstart, List.count_nil, Nat.zero_add] at hcount
  rw [heq, List.count_append, Nat.add_comm]
  refine Nat.le_trans hcount ?_
  split <;> omega

namespace Code

variable {G : Bindings Ty} {m : Module} {n n' : Nat}

/-- Locals that are declared once, with temporaries of one procedure only. -/
structure Unique (procedure : Nat) (xs : List Var) (is : List Instr) : Prop where
  nodup : (xs ++ declaredIn is).Nodup
  own : ∀ scope index, .temporary scope index ∈ declaredIn is → scope = procedure

theorem Prototype.Declares.targets {p : Prototype} {name : Name}
    {P : Typed.Procedure Typed.Expr} (h : p.Declares name P) :
    p.parameters.map (·.target) = (P.parameters.map (·.1)).map (.named P.scope) := by
  have hps := h.parameters
  generalize p.parameters = qs at hps
  generalize P.parameters = ps at hps
  induction hps with
  | nil => rfl
  | cons hq hmore ih =>
    rw [List.map_cons, List.map_cons, List.map_cons, ih, Parameter.target, hq.1, hq.2.1]

theorem unique_of_declares {b b' : Builder} {scope : Nat} {zs : List String} {is : List Instr}
    (hz : zs.Nodup) (hb : b.procedure = scope)
    (h : b.Declares b' (scope + 1) n' (declaredIn is)) :
    Unique scope (zs.map (.named scope)) is := by
  refine ⟨((Builder.Declares.names b scope hz).trans h).nodup, fun s i hmem => ?_⟩
  rw [← hb]
  exact (h.bounds _ hmem).1

theorem Procedure.Implements.unique {name : Name} {P : Typed.Procedure Typed.Expr} {q : Procedure}
    (hq : q.Implements m name P) (hf : Lexical.ProcedureFits G P n n') :
    Unique q.scope (q.prototype.parameters.map (·.target)) q.body := by
  cases hq with
  | intro hdecl hb hx hm =>
    rw [hdecl.targets]
    apply unique_of_declares hf.nodup hb
    rw [Lower.declaredIn_body]
    exact Typed.Expr.lower_declares hx hf.body

theorem Entry.Implements.unique {P : Typed.Procedure Typed.Expr} {e : Entry}
    (he : e.Implements m P) (hf : Lexical.ProcedureFits G P n n') : Unique e.scope [] e.body := by
  cases he with
  | intro hb hx hm =>
    apply unique_of_declares List.nodup_nil hb
    rw [declaredIn_append, Lower.declaredIn_prologue, List.nil_append]
    exact Typed.Expr.lower_declares hx hf.body

end Code

end RootedC
