import RootedC.Proofs.Lowering.Declared
import RootedC.Proofs.Lowering.Prototypes
import RootedC.Proofs.Lowering.Rooting
import RootedC.Proofs.Typing.Signatures

/-!
The C types of generated code. The type that the check gives to an expression is the type of the
operand that is left of it, so that whatever the code hands on has the C type that is asked for.
-/
namespace RootedC

open Code Lexical

/-- C types for types, one by one. -/
def CTypes (tys : List Ty) (cs : List String) : Prop :=
  List.Forall₂ (fun ty c => ty.cType = .ok c) tys cs

theorem CTypes.unique {tys : List Ty} {cs ds : List String} (h : CTypes tys cs)
    (h' : CTypes tys ds) : cs = ds :=
  List.right_unique_forall₂' (fun _ _ _ hc hd => Except.ok.inj (hc.symm.trans hd)) h h'

/-- A module that has what the top-level names stand for, with their C types. -/
structure Code.Module.Serves (m : Code.Module) (G : Bindings Ty) : Prop where
  constants : ∀ x ty, G.get? x = some ty → ty.isProcedure = false →
    ∃ k ∈ m.constants, k.name = x ∧ ty.cType = .ok k.cType
  procedures : ∀ x tys result, G.get? x = some (.proc tys result) →
    ∃ p ∈ m.prototypes, p.name = .user x ∧ CTypes tys (p.parameters.map (·.cType)) ∧
      result.cType = .ok p.resultType
  prototypes : ∀ q ∈ m.procedures, q.prototype ∈ m.prototypes

theorem Code.Prototype.Declares.cTypes {p : Prototype} {name : Name}
    {P : Typed.Procedure Typed.Expr} (h : p.Declares name P) :
    CTypes (P.parameters.map (·.2)) (p.parameters.map (·.cType)) := by
  rw [CTypes, List.forall₂_map_left_iff, List.forall₂_map_right_iff]
  exact h.parameters.flip.imp fun _ _ hq => hq.2.2

theorem Code.Module.Implements.serves {G : Bindings Ty} {tm : Typed.Module} {m : Code.Module}
    (hi : m.Implements tm) (hp : m.prototypes.Perm (m.procedures.map (·.prototype)))
    (hs : Signatures G tm) : m.Serves G := by
  refine ⟨fun x ty hx hty => ?_, fun x tys result hx => ?_, fun q hq => prototype_mem hp hq⟩
  · rcases hs.complete x ty hx with ⟨P, -, rfl⟩ | ⟨c, hc, rfl⟩
    · cases hty
    · have hname : c.name = x := by simpa using List.find?_some hc
      obtain ⟨k, hk, himpl⟩ := exists_mem_of_forall₂ hi.constants (List.mem_of_find?_eq_some hc)
      cases himpl with
      | intro hv hb hty => exact ⟨_, hk, hname, hty⟩
  · rcases hs.complete x _ hx with ⟨P, hP, hty⟩ | ⟨c, hc, hty⟩
    · obtain ⟨before, after, heq, -⟩ := List.lookup_eq_some_iff.mp hP
      have hmem : (x, P) ∈ tm.procedures := by simp [heq]
      obtain ⟨p, hp, hdecl⟩ := hi.exists_prototype hp (Typed.Module.user_mem_units hmem)
      obtain ⟨rfl, rfl⟩ := Ty.proc.inj hty
      exact ⟨p, hp, hdecl.name, hdecl.cTypes, hdecl.result⟩
    · obtain ⟨k, -, himpl⟩ := exists_mem_of_forall₂ hi.constants (List.mem_of_find?_eq_some hc)
      cases himpl with
      | intro hv hb hc =>
        rw [hty] at hc
        cases hc

namespace Lexical

/-- The names of some frames are locals that are declared, with the C types of their types. -/
def Listed (fs : List Frame) (Γ : Decls) : Prop :=
  ∀ x level r, Frame.find x level fs = some r →
    ∃ c, r.ty.cType = .ok c ∧ (.named r.scope x, c) ∈ Γ

theorem Frame.find_define_cases {scope : Nat} {x : String} {ty : Ty} {fs : List Frame}
    {level : Nat} {r : BindingSite}
    (h : find x level (fs.map (define scope x ty)) = some r) :
    (r.scope = scope ∧ r.ty = ty) ∨ find x level fs = some r := by
  induction fs generalizing level with
  | nil => cases h
  | cons f outer ih =>
    rw [List.map_cons, find] at h
    by_cases hf : f.scope = scope
    · rw [define, if_pos hf, Bindings.get?_bind_self] at h
      cases h
      exact .inl ⟨hf, rfl⟩
    · rw [define, if_neg hf] at h
      rw [find]
      cases hb : f.bindings.get? x with
      | none =>
        rw [hb] at h
        exact ih h
      | some t =>
        rw [hb] at h
        exact .inr h

namespace Listed

variable {fs : List Frame} {Γ Δ : Decls}

theorem mono (h : Listed fs Γ) (hΓ : Γ ⊆ Δ) : Listed fs Δ := by
  intro x level r hr
  obtain ⟨c, hc, hmem⟩ := h x level r hr
  exact ⟨c, hc, hΓ hmem⟩

theorem opened (h : Listed fs Γ) (scope : Nat) : Listed (⟨scope, []⟩ :: fs) Γ :=
  fun x level r hr => h x (level + 1) r hr

theorem declared (h : Listed fs Γ) {scope : Nat} {x : String} {ty : Ty} {c : String}
    (hc : ty.cType = .ok c) (hx : (.named scope x, c) ∈ Γ) :
    Listed (fs.map (Frame.define scope x ty)) Γ := by
  intro y level r hr
  by_cases hy : y = x
  · subst hy
    rcases Frame.find_define_cases hr with ⟨hscope, hty⟩ | hr
    · rw [hscope, hty]
      exact ⟨c, hc, hx⟩
    · exact h y level r hr
  · rw [Frame.find_define_of_ne scope ty fs level hy] at hr
    exact h y level r hr

end Listed

end Lexical

theorem Code.Prototype.Declares.listed {p : Prototype} {name : Name}
    {P : Typed.Procedure Typed.Expr} (h : p.Declares name P) :
    Listed [.ofParameters P.scope P.parameters] p.decls := by
  intro x level r hr
  cases hx : (Frame.ofParameters P.scope P.parameters).bindings.get? x with
  | none => simp [Frame.find, hx] at hr
  | some ty =>
    simp only [Frame.find, hx, Option.some.injEq] at hr
    subst hr
    have hmem : (x, ty) ∈ P.parameters := (Frame.get?_foldl_bind hx).resolve_right (by
      intro hb
      cases hb)
    obtain ⟨q, hq, hscope, hname, hc⟩ := exists_mem_of_forall₂ h.parameters.flip hmem
    refine ⟨q.cType, hc, List.mem_map.mpr ⟨q, hq, ?_⟩⟩
    rw [Parameter.target, hscope, hname]
    rfl

/-- Code that compiles and leaves a value of the C type of a type. -/
def Lowered.Checks (x : Lowered) (m : Code.Module) (result? : Option String) (Γ : Decls) (ty : Ty) :
    Prop :=
  ∃ Γ' c, ChecksAll m result? x.code Γ Γ' ∧ ty.cType = .ok c ∧ x.value.HasCType m Γ' c

theorem BinaryOp.exists_cType (op : BinaryOp) {ty : Ty} {c : String} (hc : ty.cType = .ok c) :
    ∃ d, (op.resultTy ty).cType = .ok d := by
  unfold resultTy
  split
  · exact ⟨"bool", rfl⟩
  · exact ⟨c, hc⟩

theorem BinaryOp.eq_bool_of_isConnective {op : BinaryOp} {ty : Ty} (hop : op.isConnective = true)
    (h : op.worksOn ty = true) : ty = .bool ∧ op.resultTy ty = .bool := by
  cases op with
  | and | or => exact ⟨eq_of_beq h, rfl⟩
  | _ => cases hop

theorem Builtin.exists_cType {name : String} {b : Builtin} (h : Builtin.find? name = some b) :
    ∃ c, b.result.cType = .ok c := by
  have hall : ∀ b ∈ table, (b.result.cType.toOption).isSome = true := by decide
  obtain ⟨c, hc⟩ := Option.isSome_iff_exists.mp (hall b (List.mem_of_find?_eq_some h))
  exact ⟨c, toOption_eq_some.mp hc⟩

theorem Code.Module.index_lt_of_intern {m M : Code.Module} {raw : String} {length : Nat}
    (h : (m.intern raw length).2.Before M) : (m.intern raw length).1 < M.strings.length := by
  obtain ⟨s, hs, -⟩ := m.get?_intern raw length
  have hlt := (List.getElem?_eq_some_iff.mp hs).1
  exact Nat.lt_of_lt_of_le hlt h.strings.length_le

section Instructions
variable {m : Code.Module} {result? : Option String} {Γ : Decls}

theorem Lower.checks_prologue (size : Nat) : ChecksAll m result? (Lower.prologue size) Γ Γ := by
  refine .of_forall fun i hi => ?_
  unfold Lower.prologue at hi
  rw [List.mem_append, List.mem_singleton] at hi
  rcases hi with hi | rfl
  · split at hi
    · rw [List.mem_singleton.mp hi, Instr.Checks]
    · cases hi
  · rw [Instr.Checks]

theorem Lower.checks_clearRoots (ds : List (String × Typed.Expr)) :
    ChecksAll m result? (Lower.clearRoots ds) Γ Γ := by
  refine .of_forall fun i hi => ?_
  obtain ⟨d, -, hd⟩ := List.mem_filterMap.mp hi
  obtain ⟨slot, -, rfl⟩ := Option.map_eq_some_iff.mp hd
  rw [Instr.Checks]

theorem Lower.checks_setRoot {root? : Option Nat} {target : Var} {c : String}
    (hx : (target, c) ∈ Γ) (hroot : ∀ slot ∈ root?, c = "AjisaiString *") :
    ChecksAll m result? (Lower.setRoot root? target) Γ Γ := by
  refine .of_forall fun i hi => ?_
  obtain ⟨slot, hslot, rfl⟩ := List.mem_map.mp hi
  rw [Instr.Checks, Operand.HasCType, ← hroot slot (Option.mem_toList.mp hslot)]
  exact ⟨hx, rfl⟩

theorem Lower.checks_rightArm (op : BinaryOp) {x : Operand} {code : List Instr} {Δ : Decls}
    (hx : x.HasCType m Γ "bool") (h : ChecksAll m result? code Γ Δ) :
    ChecksAll m result? [.branch x (Lower.rightArm op code).1 (Lower.rightArm op code).2] Γ Γ := by
  have hnil : ∃ Δ, ChecksAll m result? [] Γ Δ := ⟨Γ, by rw [ChecksAll]⟩
  apply ChecksAll.single
  rw [Instr.Checks]
  unfold Lower.rightArm
  split
  · exact ⟨hx, ⟨Δ, h⟩, hnil, rfl⟩
  · exact ⟨hx, hnil, ⟨Δ, h⟩, rfl⟩

/-- An operand that a new local gets for its value. -/
theorem Code.ChecksAll.define {target : Var} {c : String} {x : Operand}
    (hx : x.HasCType m Γ c) :
    ChecksAll m result? [.define c target (some x)] Γ ((target, c) :: Γ) := by
  apply ChecksAll.single
  rw [Instr.Checks]
  refine ⟨fun y hy => ?_, rfl⟩
  cases hy
  exact hx

theorem Code.ChecksAll.undefine (target : Var) (c : String) :
    ChecksAll m result? [.define c target none] Γ ((target, c) :: Γ) := by
  apply ChecksAll.single
  rw [Instr.Checks]
  refine ⟨fun y hy => ?_, rfl⟩
  cases hy

theorem Code.ChecksAll.store {target : Var} {c : String} {x : Operand} (ht : (target, c) ∈ Γ)
    (hx : x.HasCType m Γ c) : ChecksAll m result? [.store target x] Γ Γ := by
  apply ChecksAll.single
  rw [Instr.Checks]
  exact ⟨⟨c, ht, hx⟩, rfl⟩

/-- Code whose value goes to a local that is declared already. -/
theorem Lowered.Checks.store {x : Lowered} {ty : Ty} (h : x.Checks m result? Γ ty) {target : Var}
    {c : String} (hc : ty.cType = .ok c) (ht : (target, c) ∈ Γ) :
    ∃ Δ, ChecksAll m result? (x.code ++ [Instr.store target x.value]) Γ Δ := by
  obtain ⟨Γ', d, hcode, hd, hx⟩ := h
  obtain rfl : d = c := Except.ok.inj (hd.symm.trans hc)
  exact ⟨Γ', hcode.append (.store (hcode.subset ht) hx)⟩

end Instructions

namespace Typed.Expr

variable {G : Bindings Ty} {M : Code.Module} {result? : Option String}

/-- A call has the C type of the result if its operands have those of the parameters. -/
theorem lowerCallee_checks (hM : M.Serves G) {c : Callee Expr} {b b' : Builder}
    {call : List Operand → Operand} {fs : List Frame} {tys : List Ty} {result : Ty} {p q : Place}
    {Γ : Decls} {xs : List Operand} {cs : List String} (h : lowerCallee c b = .ok call b')
    (hb : b'.module.Before M) (hf : CalleeFits G fs c (.proc tys result) p q) (hcs : CTypes tys cs)
    (hxs : HaveCTypes M Γ xs cs) :
    ∃ d, result.cType = .ok d ∧ (call xs).HasCType M Γ d := by
  cases c with
  | builtin name =>
    rw [lowerCallee] at h
    obtain ⟨rfl, rfl⟩ := pure_eq_ok.mp h
    rw [CalleeFits] at hf
    obtain ⟨-, -, ⟨B, hB, hty⟩, -⟩ := hf
    obtain ⟨rfl, rfl⟩ := Ty.proc.inj hty
    obtain ⟨d, hd⟩ := Builtin.exists_cType hB
    refine ⟨d, hd, ?_⟩
    unfold Lower.builtinCall
    rw [hB, Option.any_some]
    cases hframe : B.takesFrame with
    | true => exact ⟨B, cs, hB, hframe, ⟨hcs, hd⟩, hxs⟩
    | false => exact ⟨B, cs, hB, hframe, ⟨hcs, hd⟩, hxs⟩
  | global name =>
    rw [lowerCallee] at h
    obtain ⟨rfl, rfl⟩ := pure_eq_ok.mp h
    rw [CalleeFits] at hf
    obtain ⟨P, hP, hname, hparameters, hresult⟩ := hM.procedures _ _ _ hf.2.1
    obtain rfl := hcs.unique hparameters
    exact ⟨P.resultType, hresult, P, hP, hname, rfl, hxs⟩
  | literal P =>
    obtain ⟨hty, -, -⟩ := calleeFits_literal.mp hf
    obtain ⟨rfl, rfl⟩ := Ty.proc.inj hty
    obtain ⟨-, -, -, -, -, -, -, rfl⟩ := lowerCallee_literal h
    obtain ⟨q, hq, himpl⟩ := exists_procedure_literal h
    have hlisted := hM.prototypes q (hb.procedures.subset hq)
    cases himpl with
    | @intro prototype x b₁ b₂ hdecl hscope hx hm =>
      obtain rfl := hcs.unique hdecl.cTypes
      exact ⟨prototype.resultType, hdecl.result, prototype, hlisted, hdecl.name, rfl, hxs⟩

mutual

theorem lower_checks (hM : M.Serves G) : ∀ {e : Expr} {b b' : Builder} {x : Lowered}
    {fs : List Frame} {p q : Place} {Γ : Decls}, e.lower b = .ok x b' → b'.module.Before M →
      Fits G fs e p q → Listed fs Γ → x.Checks M result? Γ e.ty
  | .integer i _, b, b', x, fs, p, q, Γ, h, hb, hf, hΓ => by
    rw [lower] at h
    obtain ⟨rfl, rfl⟩ := pure_eq_ok.mp h
    exact ⟨Γ, "int32_t", rfl, congrArg Ty.cType hf.1, rfl⟩
  | .boolean i _, b, b', x, fs, p, q, Γ, h, hb, hf, hΓ => by
    rw [lower] at h
    obtain ⟨rfl, rfl⟩ := pure_eq_ok.mp h
    exact ⟨Γ, "bool", rfl, congrArg Ty.cType hf.1, rfl⟩
  | .text i _ _, b, b', x, fs, p, q, Γ, h, hb, hf, hΓ => by
    obtain ⟨rfl, rfl⟩ := lower_text h
    exact ⟨Γ, "AjisaiString *", rfl, congrArg Ty.cType hf.1, Code.Module.index_lt_of_intern hb,
      rfl⟩
  | .unit i, b, b', x, fs, p, q, Γ, h, hb, hf, hΓ => by
    rw [lower] at h
    obtain ⟨rfl, rfl⟩ := pure_eq_ok.mp h
    exact ⟨Γ, "AjisaiUnit", rfl, congrArg Ty.cType hf.1, rfl, rfl⟩
  | .name i z level origin, b, b', x, fs, p, q, Γ, h, hb, hf, hΓ => by
    rw [lower] at h
    obtain ⟨rfl, rfl⟩ := pure_eq_ok.mp h
    rw [Fits] at hf
    obtain ⟨hty, -, hname, -⟩ := hf
    cases origin with
    | lexical scope =>
      obtain ⟨c, hc, hmem⟩ := hΓ z 0 _ hname
      exact ⟨Γ, c, rfl, hc, hmem⟩
    | global =>
      obtain ⟨k, hk, hkname, hc⟩ := hM.constants z i.ty hname.2 hty
      exact ⟨Γ, k.cType, rfl, hc, k, hk, hkname, rfl⟩
    | builtin => exact hname.elim
  | .unary i op operand, b, b', x, fs, p, q, Γ, h, hb, hf, hΓ => by
    obtain ⟨y, hy, rfl⟩ := lower_unary h
    rw [Fits] at hf
    obtain ⟨hty, -, hoperand, hf⟩ := hf
    obtain ⟨Γ', c, hcode, hc, hv⟩ := lower_checks hM hy hb hf hΓ
    rw [hoperand] at hc
    refine ⟨Γ', c, hcode, by rw [← hc, ← hty]; rfl, ?_⟩
    cases op with
    | negate =>
      obtain rfl : "int32_t" = c := Except.ok.inj hc
      exact ⟨rfl, hv⟩
    | not =>
      obtain rfl : "bool" = c := Except.ok.inj hc
      exact ⟨rfl, hv⟩
  | .binary i op left right, b, b', x, fs, p, q, Γ, h, hb, hf, hΓ => by
    obtain ⟨l, r, b₁, b₂, hl, hr, hrest⟩ := lower_binary h
    rw [Fits] at hf
    obtain ⟨hty, -, hright, hop, m, hfl, hfr⟩ := hf
    have hb₂ : b₂.module.Before M := by
      rcases hrest with ⟨-, rfl, -⟩ | ⟨-, rfl, -⟩ <;> exact hb
    have hb₁ := (lower_emits hr).before.trans hb₂
    obtain ⟨Γ₁, c, hcode, hc, hv⟩ := lower_checks hM hl hb₁ hfl hΓ
    rcases hrest with ⟨hconnective, rfl, d, hd, rfl⟩ | ⟨-, rfl, rfl⟩
    · obtain ⟨hbool, hresult⟩ := BinaryOp.eq_bool_of_isConnective hconnective hop
      obtain rfl : "bool" = c := by
        rw [hbool] at hc
        exact Except.ok.inj hc
      obtain rfl : "bool" = d := by
        rw [hty, hresult] at hd
        exact Except.ok.inj hd
      have htarget : (b₂.temporary.1, "bool") ∈ (b₂.temporary.1, "bool") :: Γ₁ :=
        List.mem_cons_self
      have hΓ₁ := (hΓ.mono hcode.subset).mono (List.subset_cons_self (b₂.temporary.1, "bool") Γ₁)
      have hrc := lower_checks hM hr hb₂ hfr hΓ₁
      obtain ⟨Δ, harm⟩ := hrc.store (by rw [hright]; exact hc) htarget
      have hload : (Operand.load b₂.temporary.1).HasCType M
          ((b₂.temporary.1, "bool") :: Γ₁) "bool" := htarget
      have hbranch := (ChecksAll.define hv).append (Lower.checks_rightArm op hload harm)
      exact ⟨_, "bool", hcode.append hbranch, hd, htarget⟩
    · obtain ⟨Γ₂, c', hcode', hc', hv'⟩ := lower_checks hM hr hb₂ hfr (hΓ.mono hcode.subset)
      obtain rfl : c' = c := by
        rw [hright] at hc'
        exact Except.ok.inj (hc'.symm.trans hc)
      obtain ⟨d, hd⟩ := op.exists_cType hc
      refine ⟨Γ₂, d, hcode.append hcode', ?_, left.ty, c', hop, hc, hd, ?_, hv'⟩
      · rw [← hd, ← hty]
        rfl
      · exact hv.mono hcode'.subset
  | .call i callee arguments, b, b', x, fs, p, q, Γ, h, hb, hf, hΓ => by
    obtain ⟨code, values, b₁, call, b₂, c, ha, hcallee, hc, rfl, rfl⟩ := lower_call h
    rw [Fits] at hf
    obtain ⟨tys, m, m', hfc, hfa, hroots⟩ := hf
    have hb₁ := (lowerCallee_emits hcallee).before.trans hb
    obtain ⟨Γ₁, cs, hcode, hcs, hvs⟩ := lowerArguments_checks hM ha hb₁ hfa hΓ
    obtain ⟨d, hd, hcall⟩ := lowerCallee_checks hM hcallee hb hfc hcs hvs
    obtain rfl : d = c := Except.ok.inj (hd.symm.trans hc)
    have htarget : (b₂.temporary.1, d) ∈ (b₂.temporary.1, d) :: Γ₁ := List.mem_cons_self
    refine ⟨_, d, (hcode.append (.define hcall)).append (Lower.checks_setRoot htarget ?_), hd,
      htarget⟩
    intro slot hslot
    rw [Option.mem_def.mp hslot] at hroots
    rw [str_of_mayBeHeap hc hroots.of_some.1] at hd
    exact (Except.ok.inj hd).symm
  | .branch i condition thenArm elseArm, b, b', x, fs, p, q, Γ, h, hb, hf, hΓ => by
    obtain ⟨y, b₁, c, t, b₂, f, hy, hc, ht, hfalse, rfl⟩ := lower_branch h
    rw [Fits] at hf
    obtain ⟨-, hbool, hty₁, hty₂, m, m', hfc, hft, hff⟩ := hf
    have hb₂ := (lower_emits hfalse).before.trans hb
    have hb₁ := (lower_emits ht).before.trans hb₂
    obtain ⟨Γ₁, d, hcode, hd, hv⟩ := lower_checks hM hy hb₁ hfc hΓ
    obtain rfl : "bool" = d := by
      rw [hbool] at hd
      exact Except.ok.inj hd
    have htarget : (b₁.temporary.1, c) ∈ (b₁.temporary.1, c) :: Γ₁ := List.mem_cons_self
    have hkept := List.subset_cons_self (b₁.temporary.1, c) Γ₁
    have hΓ₁ := (hΓ.mono hcode.subset).mono hkept
    have hthen := (lower_checks hM ht hb₂ hft hΓ₁).store (by rw [hty₁]; exact hc) htarget
    have helse := (lower_checks hM hfalse hb hff hΓ₁).store (by rw [hty₂]; exact hc) htarget
    have hbranch : Instr.Checks M result?
        (.branch y.value (t.code ++ [Instr.store b₁.temporary.1 t.value])
          (f.code ++ [Instr.store b₁.temporary.1 f.value]))
        ((b₁.temporary.1, c) :: Γ₁) ((b₁.temporary.1, c) :: Γ₁) := by
      rw [Instr.Checks]
      exact ⟨hv.mono hkept, hthen, helse, rfl⟩
    have hpair := (ChecksAll.undefine b₁.temporary.1 c).append (ChecksAll.single hbranch)
    exact ⟨_, c, hcode.append hpair, hc, htarget⟩
  | .letIn i scope declarations body, b, b', x, fs, p, q, Γ, h, hb, hf, hΓ => by
    obtain ⟨code, b₁, y, b₂, hdecls, hy, hrest⟩ := lower_let h
    rw [Fits] at hf
    obtain ⟨-, hty, fs', m, m', hfd, hfx, hroots⟩ := hf
    have hb₂ : b₂.module.Before M := by
      rcases hrest with ⟨-, rfl, -⟩ | ⟨-, -, -, -, rfl, -⟩ <;> exact hb
    have hb₁ := (lower_emits hy).before.trans hb₂
    obtain ⟨Γ₁, hcode, hΓ₁⟩ := lowerDeclarations_checks hM hdecls hb₁ hfd (hΓ.opened scope)
      (fun _ _ hseen => by cases hseen)
    obtain ⟨Γ₂, c, hcode', hc, hv⟩ := lower_checks hM hy hb₂ hfx hΓ₁
    rw [← hty] at hc
    have hboth := hcode.append hcode'
    rcases hrest with ⟨-, rfl, rfl⟩ | ⟨slot, d, hroot, hd, rfl, rfl⟩
    · exact ⟨Γ₂, c, hboth.append (Lower.checks_clearRoots _), hc, hv⟩
    · obtain rfl : d = c := Except.ok.inj (hd.symm.trans hc)
      have htarget : (b₂.temporary.1, d) ∈ (b₂.temporary.1, d) :: Γ₂ := List.mem_cons_self
      rw [hroot] at hroots
      have hstring : d = "AjisaiString *" := by
        rw [str_of_mayBeHeap hd hroots.of_some.1] at hc
        exact (Except.ok.inj hc).symm
      have hsave : ChecksAll M result? (Lower.setRoot (some slot) b₂.temporary.1)
          ((b₂.temporary.1, d) :: Γ₂) ((b₂.temporary.1, d) :: Γ₂) :=
        Lower.checks_setRoot htarget fun _ _ => hstring
      have hkeep := (ChecksAll.define hv).append hsave
      exact ⟨_, d, (hboth.append hkeep).append (Lower.checks_clearRoots _), hc, htarget⟩
  | .block i body, b, b', x, fs, p, q, Γ, h, hb, hf, hΓ => by
    rw [lower] at h
    rw [Fits] at hf
    have hbody := lowerBody_checks hM h hb hf.2.2 hΓ
    rw [← hf.1] at hbody
    exact hbody

theorem lowerBody_checks (hM : M.Serves G) : ∀ {es : List Expr} {b b' : Builder} {x : Lowered}
    {fs : List Frame} {p q : Place} {Γ : Decls}, lowerBody es b = .ok x b' →
      b'.module.Before M → AllFit G fs es p q → Listed fs Γ →
      x.Checks M result? Γ ((es.getLast?.map (·.ty)).getD .unit)
  | [], b, b', x, fs, p, q, Γ, h, hb, hf, hΓ => by
    rw [lowerBody] at h
    obtain ⟨rfl, rfl⟩ := pure_eq_ok.mp h
    exact ⟨Γ, "AjisaiUnit", rfl, rfl, rfl, rfl⟩
  | [e], b, b', x, fs, p, q, Γ, h, hb, hf, hΓ => by
    rw [lowerBody] at h
    rw [AllFit] at hf
    obtain ⟨m, hfe, -⟩ := hf
    exact lower_checks hM h hb hfe hΓ
  | e :: next :: more, b, b', x, fs, p, q, Γ, h, hb, hf, hΓ => by
    obtain ⟨code, b₁, y, hd, hy, rfl⟩ := lowerBody_cons h
    rw [AllFit] at hf
    obtain ⟨m, hfe, hfm⟩ := hf
    have hb₁ := (lowerBody_emits hy).before.trans hb
    have hfirst : ∃ Γ₁, ChecksAll M result? code Γ Γ₁ := by
      cases e with
      | call info callee arguments =>
        cases hd with
        | call ha hcallee =>
          rw [Fits] at hfe
          obtain ⟨tys, n, n', hfc, hfa, -⟩ := hfe
          have hb₂ := (lowerCallee_emits hcallee).before.trans hb₁
          obtain ⟨Γ₁, cs, hcode, hcs, hvs⟩ := lowerArguments_checks hM ha hb₂ hfa hΓ
          obtain ⟨d, -, hcall⟩ := lowerCallee_checks hM hcallee hb₁ hfc hcs hvs
          exact ⟨Γ₁, hcode.append (.single ⟨⟨d, hcall⟩, rfl⟩)⟩
        | other he =>
          obtain ⟨Γ₁, -, hcode, -⟩ := lower_checks hM he hb₁ hfe hΓ
          exact ⟨Γ₁, hcode⟩
      | _ =>
        cases hd with
        | other he =>
          obtain ⟨Γ₁, -, hcode, -⟩ := lower_checks hM he hb₁ hfe hΓ
          exact ⟨Γ₁, hcode⟩
    obtain ⟨Γ₁, hcode⟩ := hfirst
    obtain ⟨Γ₂, c, hcode', hc, hv⟩ := lowerBody_checks hM hy hb hfm (hΓ.mono hcode.subset)
    rw [List.getLast?_cons_cons]
    exact ⟨Γ₂, c, hcode.append hcode', hc, hv⟩

theorem lowerArguments_checks (hM : M.Serves G) : ∀ {es : List Expr} {b b' : Builder}
    {code : List Instr} {values : List Operand} {fs : List Frame} {tys : List Ty} {p q : Place}
    {Γ : Decls}, lowerArguments es b = .ok (code, values) b' → b'.module.Before M →
      ArgumentsFit G fs es tys p q → Listed fs Γ →
      ∃ Γ' cs, ChecksAll M result? code Γ Γ' ∧ CTypes tys cs ∧ HaveCTypes M Γ' values cs
  | [], b, b', code, values, fs, tys, p, q, Γ, h, hb, hf, hΓ => by
    rw [lowerArguments] at h
    obtain ⟨hnil, rfl⟩ := pure_eq_ok.mp h
    cases hnil
    cases tys with
    | nil => exact ⟨Γ, [], rfl, .nil, trivial⟩
    | cons ty tys => exact hf.elim
  | e :: more, b, b', code, values, fs, tys, p, q, Γ, h, hb, hf, hΓ => by
    obtain ⟨y, b₁, code', values', hy, hm, rfl, rfl⟩ := lowerArguments_cons h
    cases tys with
    | nil => exact hf.elim
    | cons ty tys =>
      rw [ArgumentsFit] at hf
      obtain ⟨rfl, m, hfe, hfm⟩ := hf
      have hb₁ := (lowerArguments_emits hm).before.trans hb
      obtain ⟨Γ₁, c, hcode, hc, hv⟩ := lower_checks hM hy hb₁ hfe hΓ
      obtain ⟨Γ₂, cs, hcode', hcs, hvs⟩ :=
        lowerArguments_checks hM hm hb hfm (hΓ.mono hcode.subset)
      exact ⟨Γ₂, c :: cs, hcode.append hcode', .cons hc hcs, hv.mono hcode'.subset, hvs⟩

theorem lowerDeclarations_checks (hM : M.Serves G) : ∀ {ds : List (String × Expr)} {scope : Nat}
    {seen : List (String × String)} {b b' : Builder} {code : List Instr} {fs fs' : List Frame}
    {p q : Place} {Γ : Decls}, lowerDeclarations scope seen ds b = .ok code b' →
      b'.module.Before M → DeclarationsFit G scope ds fs fs' p q → Listed fs Γ →
      (∀ x c, seen.lookup x = some c → (.named scope x, c) ∈ Γ) →
      ∃ Γ', ChecksAll M result? code Γ Γ' ∧ Listed fs' Γ'
  | [], scope, seen, b, b', code, fs, fs', p, q, Γ, h, hb, hf, hΓ, hseen => by
    rw [lowerDeclarations] at h
    obtain ⟨rfl, rfl⟩ := pure_eq_ok.mp h
    rw [DeclarationsFit] at hf
    rw [hf.1]
    exact ⟨Γ, rfl, hΓ⟩
  | (z, value) :: more, scope, seen, b, b', code, fs, fs', p, q, Γ, h, hb, hf, hΓ, hseen => by
    obtain ⟨y, b₁, c, i, code', hy, hc, hi, hm, rfl⟩ := lowerDeclarations_cons_seen h
    rw [DeclarationsFit] at hf
    obtain ⟨m, hfv, hfm⟩ := hf
    have hb₁ := (lowerDeclarations_emits hm).before.trans hb
    obtain ⟨Γ₁, d, hcode, hd, hv⟩ := lower_checks hM hy hb₁ hfv hΓ
    obtain rfl : d = c := Except.ok.inj (hd.symm.trans hc)
    -- Either way the local is declared with this C type behind the instruction.
    have hone : ∃ Γ₂, ChecksAll M result? [i] Γ₁ Γ₂ ∧ (.named scope z, d) ∈ Γ₂ := by
      rcases hi with ⟨-, rfl⟩ | ⟨hbefore, rfl⟩
      · exact ⟨_, .define hv, List.mem_cons_self⟩
      · have hmem := hcode.subset (hseen z d hbefore)
        exact ⟨Γ₁, .store hmem hv, hmem⟩
    obtain ⟨Γ₂, hinstr, hmem⟩ := hone
    have hΓ₂ : Γ ⊆ Γ₂ := List.Subset.trans hcode.subset hinstr.subset
    obtain ⟨Γ₃, hcode', hΓ₃⟩ := lowerDeclarations_checks hM hm hb hfm
      ((hΓ.mono hΓ₂).declared hc hmem) (fun x e hx => by
        by_cases hxz : x = z
        · subst hxz
          rw [List.lookup_cons_self] at hx
          cases hx
          exact hmem
        · rw [List.lookup_cons, beq_false_of_ne hxz] at hx
          exact hΓ₂ (hseen x e hx))
    exact ⟨Γ₃, (hcode.append hinstr).append hcode', hΓ₃⟩

end

/-- A constant needs no instructions. -/
theorem code_of_constantValue {e : RootedC.Expr} {c : Expr} (hc : constantValue? e = some c)
    {b b' : Builder} {x : Lowered} (h : c.lower b = .ok x b') : x.code = [] := by
  unfold constantValue? at hc
  split at hc
  · cases hc
    obtain ⟨rfl, -⟩ := pure_eq_ok.mp h
    rfl
  · cases hc
    obtain ⟨rfl, -⟩ := pure_eq_ok.mp h
    rfl
  · cases hc
    obtain ⟨-, rfl⟩ := lower_text h
    rfl
  · split at hc
    · cases hc
      obtain ⟨y, hy, rfl⟩ := lower_unary h
      obtain ⟨rfl, -⟩ := pure_eq_ok.mp hy
      rfl
    · cases hc
  · cases hc

end Typed.Expr

namespace Code

variable {G : Bindings Ty} {m : Module} {n n' : Nat}

theorem Prototype.map_fst_decls (p : Prototype) :
    p.decls.map (·.1) = p.parameters.map (·.target) := by
  rw [decls, List.map_map]
  rfl

theorem Procedure.Implements.checks (hm : m.Serves G) {name : Name}
    {P : Typed.Procedure Typed.Expr} {q : Procedure} (hq : q.Implements m name P)
    (hf : ProcedureFits G P n n') :
    ∃ Γ, ChecksAll m (some q.prototype.resultType) q.body q.prototype.decls Γ := by
  cases hq with
  | @intro p x b b' hdecl hb hx hbefore =>
    obtain ⟨Γ, c, hcode, hc, hv⟩ := Typed.Expr.lower_checks hm hx hbefore hf.body hdecl.listed
    have hresult : c = p.resultType := by
      rw [← hf.result] at hc
      exact Except.ok.inj (hc.symm.trans hdecl.result)
    rw [hresult] at hv
    refine ⟨Γ, ((Lower.checks_prologue P.rootCount).append hcode).append (.single ?_)⟩
    exact ⟨⟨_, rfl, hv⟩, rfl⟩

theorem Entry.Implements.checks (hm : m.Serves G) {P : Typed.Procedure Typed.Expr} {e : Entry}
    (he : e.Implements m P) (hps : P.parameters = []) (hf : ProcedureFits G P n n') :
    ∃ Γ, ChecksAll m none e.body [] Γ := by
  cases he with
  | intro hb hx hbefore =>
    have hlisted : Listed [.ofParameters P.scope P.parameters] [] := by
      rw [hps]
      exact Listed.opened (fun _ _ _ h => by cases h) P.scope
    obtain ⟨Γ, -, hcode, -⟩ := Typed.Expr.lower_checks hm hx hbefore hf.body hlisted
    exact ⟨Γ, (Lower.checks_prologue P.rootCount).append hcode⟩

theorem Constant.Implements.checks (hm : m.Serves G) {c : Typed.Constant} {k : Constant}
    (hk : k.Implements m c) (hty : c.ty = c.value.ty) {e : Expr}
    (he : constantValue? e = some c.value) : k.value.HasCType m [] k.cType := by
  cases hk with
  | @intro x b b' ty hx hbefore hc =>
    have hfits := fits_of_constantValue he G [] ⟨0, 0⟩
    have hchecks : x.Checks m none [] c.value.ty :=
      Typed.Expr.lower_checks hm hx hbefore hfits fun _ _ _ h => by cases h
    obtain ⟨Γ, d, hcode, hd, hv⟩ := hchecks
    rw [Typed.Expr.code_of_constantValue he hx, ChecksAll] at hcode
    subst hcode
    rw [hty] at hc
    obtain rfl := Except.ok.inj (hd.symm.trans hc)
    exact hv

theorem Module.Implements.constant_names {tm : Typed.Module} (hi : m.Implements tm) :
    m.constants.map (·.name) = tm.constants.map (·.name) := by
  have hconstants := hi.constants
  generalize m.constants = ks at hconstants
  generalize tm.constants = cs at hconstants
  induction hconstants with
  | nil => rfl
  | cons hk hmore ih =>
    cases hk with
    | intro hx hb hty => rw [List.map_cons, List.map_cons, ih]

theorem Module.Implements.wellTyped {tm : Typed.Module} (hi : m.Implements tm)
    (hf : ModuleFits G tm) (hs : Signatures G tm)
    (hp : m.prototypes.Perm (m.procedures.map (·.prototype))) : m.WellTyped := by
  have hm := hi.serves hp hs
  refine ⟨(hi.prototype_names hp).nodup_iff.mpr hf.names, hp, ?_, ?_, ?_, ?_⟩
  · intro q hq
    obtain ⟨name, P, n, n', himpl, hP⟩ := hi.exists_procedure hf hq
    rw [Prototype.map_fst_decls]
    exact ⟨(himpl.unique hP).nodup, himpl.checks hm hP⟩
  · rw [hi.constant_names]
    exact hs.distinct
  · intro k hk
    obtain ⟨c, hc, himpl⟩ := exists_mem_of_forall₂ hi.constants.flip hk
    obtain ⟨hty, e, he⟩ := hf.constants c hc
    exact himpl.checks hm hty he
  · intro e he
    obtain ⟨P, n, n', himpl, hps, hP⟩ := hi.exists_entry hf he
    exact ⟨(himpl.unique hP).nodup, himpl.checks hm hps hP⟩

end Code

/-- The code of a checked module is closed and well typed: it has a prototype for each named
procedure and for each literal and no other, and is well typed with these. -/
theorem Typed.Module.lower_wellTyped {source : RootedC.Module} {tm : Typed.Module} {m : Code.Module}
    (hc : source.check = .ok tm) (hl : tm.lower = .ok m) :
    m.WellTyped ∧
    (m.prototypes.map (·.name)).Perm
      (tm.literals.map (fun P => .literal P.scope) ++ tm.procedures.map fun p => .user p.1) ∧
    (∀ P ∈ tm.literals, ∃ p ∈ m.prototypes, p.Declares (.literal P.scope) P) ∧
    ∀ r ∈ tm.procedures, ∃ p ∈ m.prototypes, p.Declares (.user r.1) r.2 := by
  obtain ⟨G, -, hf, hs⟩ := signatures_of_check hc
  have hi := implements_of_lower hl hf.literals_constants
  have hp := prototypes_perm hl
  refine ⟨hi.wellTyped hf hs hp, ?_, ?_, ?_⟩
  · have hnames := (hi.prototype_names hp).trans (tm.units_perm.map (·.1))
    rw [List.map_append, List.map_map, List.map_map] at hnames
    exact hnames
  · intro P hP
    exact hi.exists_prototype hp (literal_mem_units hP)
  · intro r hr
    exact hi.exists_prototype hp (user_mem_units hr)

/-- `const limit: i32 = 3;`, `proc twice(x: i32) -> i32 { x + x }` and an entry
`let s = proc(t: str) { str_concat(t, "b") }("a") { if twice(limit) == 6 && twice(1) == 2
{ println_str(s) } else { println_bool(false) } }`. -/
def Module.labelled : Module :=
  let s : Span := .empty .nowhere
  let i32 : TypeExpr := .name "i32" .nowhere
  let str : TypeExpr := .name "str" .nowhere
  let twice (x : Expr) : Expr := .call (.name "twice" s) [x] s
  let equal (x y : Expr) : Expr := .binary x ⟨.equals, "==", s⟩ y s
  let joined : Expr := .call (.procedure ⟨[⟨"t", some str, s⟩], none,
    .call (.name "str_concat" s) [.name "t" s, .text "b" s] s, s⟩) [.text "a" s] s
  let condition : Expr := .binary (equal (twice (.name "limit" s)) (.number 6 s)) ⟨.and, "&&", s⟩
    (equal (twice (.number 1 s)) (.number 2 s)) s
  ⟨[.constant "limit" (some i32) (.number 3 s) s,
    .procedure "twice" ⟨[⟨"x", some i32, s⟩], some i32,
      .binary (.name "x" s) ⟨.plus, "+", s⟩ (.name "x" s) s, s⟩ s,
    .entry (.letIn [⟨"s", none, joined, s⟩] (.branch condition
      (.call (.name "println_str" s) [.name "s" s] s)
      (some (.call (.name "println_bool" s) [.boolean false s] s)) s) s) s], s⟩

theorem Typed.Module.labelled_wellTyped : ∃ tm m, Module.labelled.check = .ok tm ∧
    tm.lower = .ok m ∧ m.WellTyped ∧
    m.prototypes = [⟨.user "twice", [⟨1, "x", "int32_t"⟩], "int32_t"⟩,
      ⟨.literal 4, [⟨4, "t", "AjisaiString *"⟩], "AjisaiString *"⟩] := by
  have h : (Module.labelled.check.toOption.bind fun tm => tm.lower.toOption.map (·.prototypes)) =
      some [⟨.user "twice", [⟨1, "x", "int32_t"⟩], "int32_t"⟩,
        ⟨.literal 4, [⟨4, "t", "AjisaiString *"⟩], "AjisaiString *"⟩] := by
    decide +kernel
  obtain ⟨tm, hc, h⟩ := Option.bind_eq_some_iff.mp h
  obtain ⟨m, hl, h⟩ := Option.map_eq_some_iff.mp h
  rw [toOption_eq_some] at hc hl
  exact ⟨tm, m, hc, hl, (lower_wellTyped hc hl).1, h⟩

end RootedC
