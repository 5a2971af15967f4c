import RootedC.Proofs.Typing.Items
import RootedC.Proofs.Typing.Rules

/-!
Passes and the typing rules. Where every parameter has a type written for it, a pass over an
expression succeeds exactly if the rules derive a typed form, and gives that form but for the
numbers that it hands out.
-/
namespace RootedC

namespace TypeExpr

theorem ofName?_denotes {n : String} {p : Position} {ty : Ty} :
    Ty.ofName? n = some ty ↔ (TypeExpr.name n p).Denotes ty := by
  constructor
  · intro h
    unfold Ty.ofName? at h
    split at h <;> cases h
    · exact .i32
    · exact .bool
    · exact .str
    · exact .unit
  · intro h
    cases h <;> rfl

mutual

theorem toTy_eq_ok : ∀ {t : TypeExpr} {ty : Ty}, t.toTy = .ok ty ↔ t.Denotes ty
  | .name n p, ty => by
    rw [toTy, ← ofName?_denotes]
    cases Ty.ofName? n <;> simp
  | .array _ _, ty => by
    rw [toTy]
    constructor <;> intro h <;> cases h
  | .proc ps r p, ty => by
    rw [toTy, except_bind_eq_ok]
    simp only [except_bind_eq_ok, pure, Except.pure, Except.ok.injEq, toTys_eq_ok, toTy_eq_ok]
    constructor
    · rintro ⟨tys, hps, result, hr, rfl⟩
      exact .proc hps hr
    · intro h
      cases h with
      | proc hps hr => exact ⟨_, hps, _, hr, rfl⟩

theorem toTys_eq_ok : ∀ {ts : List TypeExpr} {tys : List Ty},
    toTys ts = .ok tys ↔ List.Forall₂ Denotes ts tys
  | [], tys => by simp [toTys, eq_comm]
  | t :: ts, tys => by
    rw [toTys, except_bind_eq_ok, List.forall₂_cons_left_iff]
    simp only [except_bind_eq_ok, pure, Except.pure, Except.ok.injEq, toTy_eq_ok, toTys_eq_ok]
    constructor
    · rintro ⟨ty, ht, tys, hts, rfl⟩
      exact ⟨ty, tys, ht, hts, rfl⟩
    · rintro ⟨ty, tys, ht, hts, rfl⟩
      exact ⟨ty, ht, tys, hts, rfl⟩

end

end TypeExpr

theorem UnaryOp.on_iff {op : UnaryOp} {ty : Ty} : op.On ty ↔ ty = op.ty := by
  constructor
  · intro h
    cases h <;> rfl
  · rintro rfl
    cases op
    · exact .negate
    · exact .not

theorem BinaryOp.on_iff {op : BinaryOp} {ty result : Ty} :
    op.On ty result ↔ op.worksOn ty = true ∧ result = op.resultTy ty := by
  constructor
  · intro h
    cases h with
    | arithmetic h | ordering h | connective h => cases op <;> simp at h <;> exact ⟨rfl, rfl⟩
    | equality h ht => rcases ht with rfl | rfl <;> cases op <;> simp at h <;> exact ⟨rfl, rfl⟩
  · rintro ⟨hw, rfl⟩
    cases op with
    | add | sub | mul | div | mod =>
      rw [eq_of_beq hw]
      exact .arithmetic (by simp)
    | lt | le | gt | ge =>
      rw [eq_of_beq hw]
      exact .ordering (by simp)
    | and | or =>
      rw [eq_of_beq hw]
      exact .connective (by simp)
    | eq | ne =>
      rw [worksOn, Bool.or_eq_true] at hw
      exact .equality (by simp) (hw.imp eq_of_beq eq_of_beq)

namespace Lexical

open Rules

/-- What the rules see of an activation and its surroundings. -/
def view (w : Outside) (fs : List Frame) : Env := fun x =>
  match Frame.find x 0 fs with
  | some r => some (.here r.ty)
  | none => if w.binds x then some .outer else none

/-- The top-level types as the rules see them. -/
def typesOf (G : Bindings Ty) : Globals := fun x ty => G.get? x = some ty

section View
variable {w : Outside}

theorem view_cons (f : Frame) (fs : List Frame) (x : String) :
    view w (f :: fs) x = match f.bindings.get? x with
      | some ty => some (.here ty)
      | none => view w fs x := by
  unfold view
  cases hf : f.bindings.get? x with
  | some ty => simp [Frame.find, hf]
  | none =>
    have hfind := Frame.map_ty_find x 1 fs
    simp only [Frame.find, hf]
    cases h₁ : Frame.find x 1 fs <;> cases h₀ : Frame.find x 0 fs <;> simp_all

theorem view_openLet (n : Nat) (fs : List Frame) : view w (⟨n, []⟩ :: fs) = view w fs := by
  funext x
  rw [view_cons]
  rfl

theorem view_define {f : Frame} {fs : List Frame} (hf : f.scope ∉ fs.map Frame.scope) (z : String)
    (ty : Ty) : view w ((f :: fs).map (Frame.define f.scope z ty)) = (view w (f :: fs)).bind z ty := by
  funext x
  rw [List.map_cons, Frame.map_define_of_not_mem hf, view_cons, Env.bind, view_cons, Frame.define, if_pos rfl]
  by_cases hx : x = z
  · subst hx
    rw [Bindings.get?_bind_self, if_pos rfl]
  · rw [Bindings.get?_bind_of_ne _ _ hx, if_neg hx]

theorem view_enter (fs : List Frame) : view (w.enter fs) [] = (view w fs).enter := by
  funext x
  rcases Option.eq_none_or_eq_some (Frame.find x 0 fs) with h | ⟨r, h⟩
  · cases hb : w.binds x <;> simp [view, Env.enter, Outside.enter, Frame.find, h, hb]
  · simp [view, Env.enter, Outside.enter, Frame.find, h]

theorem view_ofParameters (n : Nat) (ps : List (String × Ty)) :
    view w [.ofParameters n ps] = (view w []).bindAll ps := by
  suffices h : ∀ (bs : Bindings Ty) (Γ : Env),
      (∀ x, Γ x = match bs.get? x with | some ty => some (.here ty) | none => view w [] x) →
      ∀ x, Γ.bindAll ps x = match (ps.foldl (fun bs p => bs.bind p.1 p.2) bs).get? x with
        | some ty => some (.here ty)
        | none => view w [] x by
    funext x
    rw [view_cons, Frame.ofParameters]
    exact (h [] _ (fun _ => rfl) x).symm
  induction ps with
  | nil => exact fun bs Γ h => h
  | cons p more ih =>
    intro bs Γ h
    refine ih (bs.bind p.1 p.2) (Γ.bind p.1 p.2) fun x => ?_
    by_cases hx : x = p.1
    · rw [hx, Bindings.get?_bind_self, Env.bind, if_pos rfl]
    · rw [Bindings.get?_bind_of_ne _ _ hx, Env.bind, if_neg hx, h]

theorem view_ofGlobals (G : Bindings Ty) : view (.ofGlobals G) [] = .empty := rfl

end View

section Written
variable {ps : List Parameter} {tys : List Ty}

theorem writtenTypes_eq_ok (ha : ∀ p ∈ ps, p.type?.isSome = true) :
    Check.writtenTypes ps = .ok tys ↔ List.Forall₂ Parameter.Has ps tys := by
  induction ps generalizing tys with
  | nil => simp [Check.writtenTypes, eq_comm]
  | cons p more ih =>
    obtain ⟨hp, hmore⟩ := List.forall_mem_cons.mp ha
    obtain ⟨t, ht⟩ := Option.isSome_iff_exists.mp hp
    rw [writtenTypes_cons, List.forall₂_cons_left_iff]
    simp only [ht, ih hmore, Parameter.Has, Option.mem_def, Option.some.injEq, forall_eq',
      reduceCtorEq, false_implies, true_and, exists_eq_left', TypeExpr.toTy_eq_ok]

theorem isSome_of_has (h : List.Forall₂ Parameter.Has ps tys) :
    ∀ p ∈ ps, p.type?.isSome = true := by
  intro p hp
  obtain ⟨ty, -, t, ht, -⟩ := exists_mem_of_forall₂ h hp
  rw [ht]
  rfl

theorem settled_of_has (h : List.Forall₂ Parameter.Has ps tys) :
    ∀ ty ∈ tys, ty.settled = true := by
  intro ty hty
  obtain ⟨p, -, t, -, ht⟩ := exists_mem_of_forall₂ h.flip hty
  exact TypeExpr.settled_of_toTy (TypeExpr.toTy_eq_ok.mpr ht)

theorem anyFilled_of_settled {written : List Ty} (h : ∀ t ∈ written, t.settled = true)
    (found : List Ty) : Check.anyFilled written found = false := by
  refine List.any_eq_false.mpr fun p hp => ?_
  simp [Ty.isHole_eq_false_of_settled (h p.1 (List.of_mem_zip hp).1)]

/-- Where all types of parameters are written, one pass over the body is all there is. -/
theorem checkProcedure_written {w : Outside} {n n' : Nat} {result? : Option TypeExpr} {body : Expr}
    {span : Span} {P : Typed.Procedure Typed.Expr} (ha : ∀ p ∈ ps, p.type?.isSome = true) :
    checkProcedure w n ⟨ps, result?, body, span⟩ = some (P, n') ↔
      (ps.map (·.name)).Nodup ∧ ∃ tys e slots fs, List.Forall₂ Parameter.Has ps tys ∧
        check w body ⟨[.ofParameters n ((ps.map (·.name)).zip tys)], 0, n + 1⟩ =
          some (e, ⟨fs, slots, n'⟩) ∧
        (∀ t ∈ result?, t.Denotes e.ty) ∧
        P = ⟨n, (ps.map (·.name)).zip tys, e.ty, e, slots, span⟩ := by
  rw [checkProcedure_eq_some]
  simp only [writtenTypes_eq_ok ha, closeProcedure_eq_some, TypeExpr.toTy_eq_ok]
  refine and_congr_right fun _ => ⟨?_, ?_⟩
  · rintro ⟨written, scope, tys, e, a, hw, hl, he, -, hresult, rfl, rfl⟩
    have hsettled := settled_of_has hw
    cases hl with
    | first h hf => exact ⟨written, e, _, _, hw, he, hresult, rfl⟩
    | second h hf =>
      rw [anyFilled_of_settled hsettled] at hf
      cases hf
  · rintro ⟨tys, e, slots, fs, hw, he, hresult, rfl⟩
    have hsettled := settled_of_has hw
    refine ⟨tys, n, tys, e, _, hw, .first he (anyFilled_of_settled hsettled _), he, ?_, hresult, rfl,
      rfl⟩
    exact fun q hq => Ty.isHole_eq_false_of_settled (hsettled _ (List.of_mem_zip hq).2)

end Written

theorem view_of_find {w : Outside} {fs : List Frame} {x : String} {r : BindingSite}
    (h : Frame.find x 0 fs = some r) : view w fs x = some (.here r.ty) := by
  rw [view, h]

theorem view_eq_none {w : Outside} {fs : List Frame} {x : String} :
    view w fs x = none ↔ Frame.find x 0 fs = none ∧ w.binds x = false := by
  unfold view
  cases Frame.find x 0 fs <;> cases w.binds x <;> simp

/-- A type written for a value without holes is the type of the value. -/
theorem denotes_of_agrees {t : TypeExpr} {ty : Ty}
    (h : (t.toTy.toOption.any fun u => u.agrees ty) = true) (hty : ty.settled = true) :
    t.Denotes ty := by
  cases ht : t.toTy with
  | error d => simp [ht, Except.toOption] at h
  | ok u =>
    simp only [ht, Except.toOption, Option.any_some] at h
    rw [← (Ty.agrees_iff_of_settled (TypeExpr.settled_of_toTy ht) hty).mp h]
    exact TypeExpr.toTy_eq_ok.mp ht

theorem callee_elaborates {w : Outside} {callee : Expr} {a a' : Activation}
    {c : Typed.Callee Typed.Expr} {ps : List Ty} {r : Ty}
    (hliteral : ∀ literal P n, callee = .procedure literal →
      checkProcedure (w.enter a.frames) a.next literal = some (P, n) →
      ElaborateProcedure (typesOf w.globals) (view w a.frames) literal (P.relabel .forget))
    (h : checkCallee w callee a = some ((c, .proc ps r), a')) :
    ElaborateCallee (typesOf w.globals) (view w a.frames) callee
      (Typed.Expr.relabelCallee .forget c) ps r := by
  rcases checkCallee_eq_some.mp h with ⟨literal, P, rfl, rfl, hty, hp, -⟩ | ⟨name, s, rfl, hn⟩
  · cases hty
    rw [Typed.Expr.relabelCallee_literal]
    exact .literal (hliteral literal P _ rfl hp)
  · obtain ⟨-, hf, hb, ⟨hg, -, rfl⟩ | ⟨hg, b, hb', hty, rfl⟩⟩ := checkCalleeName_eq_some.mp hn
    · rw [Typed.Expr.relabelCallee]
      exact .global (view_eq_none.mpr ⟨hf, hb⟩) hg
    · cases hty
      rw [Typed.Expr.relabelCallee]
      exact .builtin (view_eq_none.mpr ⟨hf, hb⟩) (fun ty h => by simp [typesOf, hg] at h) hb'

mutual

/-- What a check accepts the rules derive, with the types that the check has found. -/
theorem check_elaborates : ∀ {e : Expr} {w : Outside} {a a' : Activation} {te : Typed.Expr},
    check w e a = some (te, a') → Ready False w a → e.annotated = true →
      Elaborates (typesOf w.globals) (view w a.frames) e (te.relabel .forget)
  | .number _ _, w, a, a', te, h, hr, ha => by
    obtain ⟨rfl, rfl⟩ := check_number_eq_some.mp h
    exact .number
  | .text _ _, w, a, a', te, h, hr, ha => by
    obtain ⟨rfl, rfl⟩ := check_text_eq_some.mp h
    exact .text
  | .boolean _ _, w, a, a', te, h, hr, ha => by
    obtain ⟨rfl, rfl⟩ := check_boolean_eq_some.mp h
    exact .boolean
  | .unit _, w, a, a', te, h, hr, ha => by
    obtain ⟨rfl, rfl⟩ := check_unit_eq_some.mp h
    exact .unit
  | .name _ _, w, a, a', te, h, hr, ha => by
    rw [check] at h
    obtain ⟨rfl, ⟨r, hf, hp, rfl⟩ | ⟨hf, hb, ty, hg, hp, rfl⟩⟩ := checkName_eq_some.mp h
    · exact .lexical (view_of_find hf) hp
    · exact .global (view_eq_none.mpr ⟨hf, hb⟩) hg hp
  | .unary _ operand _, w, a, a', te, h, hr, ha => by
    obtain ⟨op, x, a₁, y, hop, hx, hfill, hty, rfl⟩ := check_unary_eq_some.mp h
    obtain ⟨-, hs, -⟩ := check_frames hx hr
    obtain ⟨rfl, rfl⟩ := fillHole_of_settled hfill hs
    rw [Expr.annotated] at ha
    have hel := check_elaborates hx hr ha
    rw [Typed.Expr.relabel, ← hty, ← Typed.Expr.ty_relabel]
    exact .unary hop hel (UnaryOp.on_iff.mpr ((Typed.Expr.ty_relabel _).trans hty))
  | .binary left _ right _, w, a, a', te, h, hr, ha => by
    obtain ⟨op, l, r, a₁, hop, hl, hright, hagree, hworks, rfl⟩ := check_binary_eq_some.mp h
    obtain ⟨hf, hls, hr₁⟩ := check_frames hl hr
    obtain ⟨-, hrs, -⟩ := check_frames hright hr₁
    have heq := (Ty.agrees_iff_of_settled hls hrs).mp hagree
    rw [Ty.settle_of_settled hls] at hworks ⊢
    rw [Ty.isHole_eq_false_of_settled hls, Bool.false_or] at hworks
    rw [Expr.annotated, Bool.and_eq_true] at ha
    have hel := check_elaborates hl hr ha.1
    have her := check_elaborates hright hr₁ ha.2
    rw [hf] at her
    refine .binary hop hel her ?_ (BinaryOp.on_iff.mpr ?_)
    · rw [Typed.Expr.ty_relabel, Typed.Expr.ty_relabel, heq]
    · rw [Typed.Expr.ty_relabel]
      exact ⟨hworks, rfl⟩
  | .call callee arguments _, w, a, a', te, h, hr, ha => by
    obtain ⟨c, ps, r, a₁, es, a₂, root?, hc, hlen, hes, hroot, rfl⟩ := check_call_eq_some.mp h
    rw [Expr.annotated, Bool.and_eq_true] at ha
    have hcallee : ElaborateCallee (typesOf w.globals) (view w a.frames) callee
        (Typed.Expr.relabelCallee .forget c) ps r := by
      cases callee with
      | procedure literal =>
        refine callee_elaborates (fun l P n hl hp => ?_) hc
        cases hl
        exact checkProcedure_elaborates hp hr.globals ha.1 (view_enter a.frames).symm
      | _ => exact callee_elaborates (fun _ _ _ hl _ => by cases hl) hc
    obtain ⟨hg, hs⟩ := callee_known hr (fun _ _ _ _ hp => checkProcedure_grows hp hr.globals) hc
    obtain ⟨hel, htys⟩ := checkArguments_elaborates hes (hg.ready hr) (Ty.settled_proc.mp hs).1 hlen
      ha.2
    rw [hg.frames.eq_of_settled hr.known] at hel
    rw [Typed.Expr.relabel]
    refine .call ?_ hel
    rw [Typed.Expr.map_ty_relabelAll, htys]
    exact hcallee
  | .branch condition thenArm elseArm? _, w, a, a', te, h, hr, ha => by
    obtain ⟨c, t, f, a₁, a₂, hc, hbool, ht, helse, hagree, rfl⟩ := check_branch_eq_some.mp h
    obtain ⟨hf₁, hcs, hr₁⟩ := check_frames hc hr
    obtain ⟨hf₂, hts, hr₂⟩ := check_frames ht hr₁
    obtain ⟨-, hfs, -⟩ := check_frames helse hr₂
    have hbool : c.ty = .bool := ((Ty.agrees_iff_of_settled rfl hcs).mp hbool).symm
    have heq := (Ty.agrees_iff_of_settled hts hfs).mp hagree
    rw [Ty.settle_of_settled hts, ← Typed.Expr.ty_relabel (r := .forget)]
    cases elseArm? with
    | some elseArm =>
      rw [Expr.annotated, Bool.and_eq_true, Bool.and_eq_true] at ha
      have hec := check_elaborates hc hr ha.1.1
      have het := check_elaborates ht hr₁ ha.1.2
      have hef := check_elaborates helse hr₂ ha.2
      rw [hf₁] at het
      rw [hf₂, hf₁] at hef
      refine .branch hec ((Typed.Expr.ty_relabel _).trans hbool) het hef ?_
      rw [Typed.Expr.ty_relabel, Typed.Expr.ty_relabel, heq]
    | none =>
      rw [Expr.annotated, Bool.and_eq_true] at ha
      obtain ⟨rfl, rfl⟩ := check_unit_eq_some.mp helse
      have hec := check_elaborates hc hr ha.1
      have het := check_elaborates ht hr₁ ha.2
      rw [hf₁] at het
      have hunit : (t.relabel .forget).ty = .unit := (Typed.Expr.ty_relabel _).trans heq
      rw [hunit]
      exact .single hec ((Typed.Expr.ty_relabel _).trans hbool) het hunit
  | .letIn declarations body _, w, a, a', te, h, hr, ha => by
    obtain ⟨ds, a₁, x, a₂, a₃, root?, hds, hx, hroot, rfl, rfl⟩ := check_let_eq_some.mp h
    rw [Expr.annotated, Bool.and_eq_true] at ha
    have hr₁ := (checkDeclarations_grows hds hr.openLet rfl rfl).ready hr.openLet
    have hel := checkDeclarations_elaborates hds hr.openLet rfl rfl ha.1
    rw [view_openLet] at hel
    rw [Typed.Expr.relabel, Typed.Info.relabel, ← Typed.Expr.ty_relabel (r := .forget)]
    exact .letIn hel (check_elaborates hx hr₁ ha.2)
  | .procedure literal, w, a, a', te, h, hr, ha => absurd h check_procedure_ne_some
  | .block body _, w, a, a', te, h, hr, ha => by
    obtain ⟨es, hes, rfl⟩ := check_block_eq_some.mp h
    rw [Expr.annotated] at ha
    rw [Typed.Expr.relabel, Typed.Info.relabel, ← Typed.Expr.last_ty_relabelAll]
    exact .block (checkAll_elaborates hes hr ha)

theorem checkAll_elaborates : ∀ {es : List Expr} {w : Outside} {a a' : Activation}
    {tes : List Typed.Expr}, checkAll w es a = some (tes, a') → Ready False w a →
      Expr.annotatedAll es = true →
      ElaborateAll (typesOf w.globals) (view w a.frames) es (Typed.Expr.relabelAll .forget tes)
  | [], w, a, a', tes, h, hr, ha => by
    obtain ⟨rfl, rfl⟩ := checkAll_nil_eq_some.mp h
    exact .nil
  | e :: more, w, a, a', tes, h, hr, ha => by
    obtain ⟨te, a₁, rest, he, hm, rfl⟩ := checkAll_cons_eq_some.mp h
    obtain ⟨hf, -, hr₁⟩ := check_frames he hr
    rw [Expr.annotatedAll, Bool.and_eq_true] at ha
    have hmore := checkAll_elaborates hm hr₁ ha.2
    rw [hf] at hmore
    exact .cons (check_elaborates he hr ha.1) hmore

theorem checkArguments_elaborates : ∀ {es : List Expr} {tys : List Ty} {w : Outside}
    {a a' : Activation} {tes : List Typed.Expr}, checkArguments w es tys a = some (tes, a') →
      Ready False w a → (∀ t ∈ tys, t.settled = true) → es.length = tys.length →
      Expr.annotatedAll es = true →
      ElaborateAll (typesOf w.globals) (view w a.frames) es (Typed.Expr.relabelAll .forget tes) ∧
        tes.map (·.ty) = tys
  | [], tys, w, a, a', tes, h, hr, hs, hl, ha => by
    obtain ⟨rfl, rfl⟩ := checkArguments_nil_eq_some.mp h
    exact ⟨.nil, (List.length_eq_zero_iff.mp hl.symm).symm⟩
  | e :: more, [], w, a, a', tes, h, hr, hs, hl, ha => by cases hl
  | e :: more, ty :: tys, w, a, a', tes, h, hr, hs, hl, ha => by
    obtain ⟨te, a₁, rest, he, hagree, hm, rfl⟩ := checkArguments_cons_eq_some.mp h
    obtain ⟨hf, hes, hr₁⟩ := check_frames he hr
    obtain ⟨hty, htys⟩ := List.forall_mem_cons.mp hs
    rw [Expr.annotatedAll, Bool.and_eq_true] at ha
    obtain ⟨hmore, hmap⟩ := checkArguments_elaborates hm hr₁ htys (Nat.succ.inj hl) ha.2
    rw [hf] at hmore
    refine ⟨.cons (check_elaborates he hr ha.1) hmore, ?_⟩
    rw [List.map_cons, hmap, (Ty.agrees_iff_of_settled hty hes).mp hagree]

theorem checkDeclarations_elaborates : ∀ {ds : List (Declaration Expr)} {w : Outside}
    {a a' : Activation} {tds : List (String × Typed.Expr)} {f : Frame} {fs : List Frame}
    {scope : Nat}, checkDeclarations w scope ds a = some (tds, a') → Ready False w a →
      a.frames = f :: fs → f.scope = scope → Expr.annotatedDeclarations ds = true →
      ElaborateDeclarations (typesOf w.globals) (view w a.frames) ds
        (Typed.Expr.relabelDeclarations .forget tds) (view w a'.frames)
  | [], w, a, a', tds, f, fs, _, h, hr, hf, _, ha => by
    obtain ⟨rfl, rfl⟩ := checkDeclarations_nil_eq_some.mp h
    exact .nil
  | ⟨z, type?, value, s⟩ :: more, w, a, a', tds, f, fs, _, h, hr, hf, rfl, ha => by
    obtain ⟨x, a₁, rest, hx, hwritten, hm, rfl⟩ := checkDeclarations_cons_eq_some.mp h
    obtain ⟨hg, ht⟩ := check_grows hx hr
    have hd := hg.declares hr hf z ht
    obtain ⟨f', fs', hf', hs⟩ := hd.frames_eq hf
    rw [Expr.annotatedDeclarations, Bool.and_eq_true] at ha
    have hmore := checkDeclarations_elaborates hm (hd.ready hr) hf' hs ha.2
    have hview := @view_define w f fs (hr.head_not_mem hf) z x.ty
    rw [← hf] at hview
    rw [hg.frames.eq_of_settled hr.known, hview, ← Typed.Expr.ty_relabel (r := .forget)] at hmore
    refine .cons (check_elaborates hx hr ha.1) (fun t htype => ?_) hmore
    rw [Typed.Expr.ty_relabel]
    rw [Option.mem_def] at htype
    subst htype
    exact denotes_of_agrees hwritten ht.settled

theorem checkProcedure_elaborates : ∀ {literal : Procedure Expr} {w : Outside} {n n' : Nat}
    {P : Typed.Procedure Typed.Expr}, checkProcedure w n literal = some (P, n') →
      (∀ x t, w.globals.get? x = some t → t.settled = true) →
      (Expr.procedure literal).annotated = true → ∀ {Γ : Env}, Γ.enter = view w [] →
      ElaborateProcedure (typesOf w.globals) Γ literal (P.relabel .forget)
  | ⟨parameters, result?, body, span⟩, w, n, n', P, h, hg, ha, Γ, hΓ => by
    rw [Expr.annotated, Bool.and_eq_true, List.all_eq_true] at ha
    obtain ⟨hnames, tys, e, slots, fs, hps, he, hresult, rfl⟩ := (checkProcedure_written ha.1).mp h
    have hready : Ready False w ⟨[.ofParameters n ((parameters.map (·.name)).zip tys)], 0, n + 1⟩ :=
      .ofParameters (fun p hp => .inl (settled_of_has hps _ (List.of_mem_zip hp).2)) hg
    have hbody := check_elaborates he hready ha.2
    rw [view_ofParameters, ← hΓ] at hbody
    rw [Typed.Procedure.relabel, ← Typed.Expr.ty_relabel (r := .forget)]
    refine .intro hnames hps hbody fun t ht => ?_
    rw [Typed.Expr.ty_relabel]
    exact hresult t ht

end

theorem exists_rootFor (ty : Ty) (a : Activation) :
    ∃ root? a', Pass.rootFor ty a = some (root?, a') := by
  unfold Pass.rootFor
  split
  · exact ⟨_, _, rfl⟩
  · exact ⟨_, _, rfl⟩

theorem agrees_of_denotes {type? : Option TypeExpr} {ty : Ty} (h : ∀ t ∈ type?, t.Denotes ty) :
    (type?.all fun t => t.toTy.toOption.any (·.agrees ty)) = true := by
  cases type? with
  | none => rfl
  | some t =>
    have ht := TypeExpr.toTy_eq_ok.mpr (h t rfl)
    simp [ht, Except.toOption, Ty.agrees_self]

theorem find_of_view {w : Outside} {fs : List Frame} {x : String} {ty : Ty}
    (h : view w fs x = some (.here ty)) : ∃ r, Frame.find x 0 fs = some r ∧ r.ty = ty := by
  unfold view at h
  split at h
  · next r hr =>
    cases h
    exact ⟨r, hr, rfl⟩
  · split at h <;> cases h

theorem exists_checkCallee {w : Outside} {callee : Expr} {a : Activation}
    {tc : Typed.Callee Typed.Expr} {tys : List Ty} {ty : Ty}
    (hliteral : ∀ literal P, callee = .procedure literal →
      ElaborateProcedure (typesOf w.globals) (view w a.frames) literal P →
      ∃ P' n, checkProcedure (w.enter a.frames) a.next literal = some (P', n) ∧
        P'.relabel .forget = P)
    (h : ElaborateCallee (typesOf w.globals) (view w a.frames) callee tc tys ty) :
    ∃ c a', checkCallee w callee a = some ((c, .proc tys ty), a') ∧
      Typed.Expr.relabelCallee .forget c = tc := by
  cases h with
  | @literal _ L P h =>
    obtain ⟨P', n, hP, rfl⟩ := hliteral L P rfl h
    refine ⟨.literal P', { a with next := n }, ?_, Typed.Expr.relabelCallee_literal P'⟩
    exact checkCallee_eq_some.mpr (.inl ⟨L, P', rfl, rfl, rfl, hP, rfl⟩)
  | @global _ f s tys ty hf hg =>
    obtain ⟨hfind, hb⟩ := view_eq_none.mp hf
    refine ⟨.global f, a, checkCallee_eq_some.mpr (.inr ⟨f, s, rfl, ?_⟩), by
      rw [Typed.Expr.relabelCallee]⟩
    exact checkCalleeName_eq_some.mpr ⟨rfl, hfind, hb, .inl ⟨hg, rfl, rfl⟩⟩
  | @builtin _ f s b hf hg hb' =>
    obtain ⟨hfind, hb⟩ := view_eq_none.mp hf
    have hnone : w.globals.get? f = none :=
      Option.eq_none_iff_forall_not_mem.mpr fun ty hty => hg ty hty
    refine ⟨.builtin f, a, checkCallee_eq_some.mpr (.inr ⟨f, s, rfl, ?_⟩), by
      rw [Typed.Expr.relabelCallee]⟩
    exact checkCalleeName_eq_some.mpr ⟨rfl, hfind, hb, .inr ⟨hnone, b, hb', rfl, rfl⟩⟩

mutual

/-- What the rules derive a check accepts, and finds the types that are derived. -/
theorem exists_check : ∀ {e : Expr} {w : Outside} {a : Activation} {te : Typed.Expr},
    Elaborates (typesOf w.globals) (view w a.frames) e te → Ready False w a →
      ∃ te' a', check w e a = some (te', a') ∧ te'.relabel .forget = te
  | .number _ _, w, a, te, h, hr => by
    cases h
    exact ⟨_, a, check_number_eq_some.mpr ⟨rfl, rfl⟩, rfl⟩
  | .text _ _, w, a, te, h, hr => by
    cases h
    exact ⟨_, a, check_text_eq_some.mpr ⟨rfl, rfl⟩, rfl⟩
  | .boolean _ _, w, a, te, h, hr => by
    cases h
    exact ⟨_, a, check_boolean_eq_some.mpr ⟨rfl, rfl⟩, rfl⟩
  | .unit _, w, a, te, h, hr => by
    cases h
    exact ⟨_, a, check_unit_eq_some.mpr ⟨rfl, rfl⟩, rfl⟩
  | .name _ _, w, a, te, h, hr => by
    simp only [check, checkName_eq_some]
    cases h with
    | lexical hx hty =>
      obtain ⟨r, hr, rfl⟩ := find_of_view hx
      exact ⟨_, a, ⟨rfl, .inl ⟨r, hr, hty, rfl⟩⟩, rfl⟩
    | global hx hg hty =>
      obtain ⟨hf, hb⟩ := view_eq_none.mp hx
      exact ⟨_, a, ⟨rfl, .inr ⟨hf, hb, _, hg, hty, rfl⟩⟩, rfl⟩
  | .unary _ operand _, w, a, te, h, hr => by
    cases h with
    | @unary _ _ _ _ op tx hop hx hty =>
      obtain ⟨x, a₁, hcheck, rfl⟩ := exists_check hx hr
      obtain ⟨-, hs, -⟩ := check_frames hcheck hr
      rw [UnaryOp.on_iff, Typed.Expr.ty_relabel] at hty
      refine ⟨_, a₁, check_unary_eq_some.mpr ⟨op, x, a₁, x, hop, hcheck, ?_, hty, rfl⟩, ?_⟩
      · refine fillHole_eq_some.mpr (.inr ⟨?_, rfl, rfl⟩)
        rintro root? span name level scope rfl
        cases hs
      · rw [Typed.Expr.relabel, Typed.Expr.ty_relabel, hty]
        rfl
  | .binary left _ right _, w, a, te, h, hr => by
    cases h with
    | @binary _ _ _ _ _ op tx ty result hop hx hy hsame hty =>
      obtain ⟨l, a₁, hl, rfl⟩ := exists_check hx hr
      obtain ⟨hf, hls, hr₁⟩ := check_frames hl hr
      rw [← hf] at hy
      obtain ⟨r, a₂, hright, rfl⟩ := exists_check hy hr₁
      rw [Typed.Expr.ty_relabel, Typed.Expr.ty_relabel] at hsame
      rw [BinaryOp.on_iff, Typed.Expr.ty_relabel] at hty
      refine ⟨_, a₂, check_binary_eq_some.mpr ⟨op, l, r, a₁, hop, hl, hright, ?_, ?_, rfl⟩, ?_⟩
      · rw [hsame]
        exact Ty.agrees_self _
      · rw [Ty.settle_of_settled hls, hty.1, Bool.or_true]
      · rw [Typed.Expr.relabel, Ty.settle_of_settled hls, hty.2]
        rfl
  | .call callee arguments _, w, a, te, h, hr => by
    cases h with
    | @call _ _ _ _ tc result tes hc hes =>
      obtain ⟨c, a₁, hcallee, rfl⟩ : ∃ c a₁, checkCallee w callee a =
          some ((c, .proc (tes.map (·.ty)) result), a₁) ∧
          Typed.Expr.relabelCallee .forget c = tc := by
        cases callee with
        | procedure literal =>
          refine exists_checkCallee (fun l P hl hP => ?_) hc
          cases hl
          exact exists_checkProcedure hP hr.globals (view_enter a.frames).symm
        | _ => exact exists_checkCallee (fun _ _ hl _ => by cases hl) hc
      obtain ⟨hg, -⟩ := callee_known hr (fun _ _ _ _ hp => checkProcedure_grows hp hr.globals)
        hcallee
      rw [← hg.frames.eq_of_settled hr.known] at hes
      obtain ⟨hl, es, a₂, hargs, rfl⟩ := exists_checkArguments hes (hg.ready hr)
      obtain ⟨root?, a₃, hroot⟩ := exists_rootFor result a₂
      refine ⟨_, a₃, check_call_eq_some.mpr ⟨c, _, result, a₁, es, a₂, root?, hcallee, ?_, hargs,
        hroot, rfl⟩, ?_⟩
      · rw [hl, List.length_map]
      · rw [Typed.Expr.relabel]
        rfl
  | .branch condition thenArm elseArm? _, w, a, te, h, hr => by
    cases h with
    | branch hc hbool hx hy hsame =>
      obtain ⟨c, a₁, hcheck, rfl⟩ := exists_check hc hr
      obtain ⟨hf₁, -, hr₁⟩ := check_frames hcheck hr
      rw [← hf₁] at hx hy
      obtain ⟨t, a₂, ht, rfl⟩ := exists_check hx hr₁
      obtain ⟨hf₂, hts, hr₂⟩ := check_frames ht hr₁
      rw [← hf₂] at hy
      obtain ⟨f, a₃, hf, rfl⟩ := exists_check hy hr₂
      rw [Typed.Expr.ty_relabel] at hbool
      rw [Typed.Expr.ty_relabel, Typed.Expr.ty_relabel] at hsame
      refine ⟨_, a₃, check_branch_eq_some.mpr ⟨c, t, f, a₁, a₂, hcheck, ?_, ht, hf, ?_, rfl⟩, ?_⟩
      · rw [hbool]
        rfl
      · rw [hsame]
        exact Ty.agrees_self _
      · rw [Typed.Expr.relabel, Ty.settle_of_settled hts, Typed.Expr.ty_relabel]
        rfl
    | single hc hbool hx hunit =>
      obtain ⟨c, a₁, hcheck, rfl⟩ := exists_check hc hr
      obtain ⟨hf₁, -, hr₁⟩ := check_frames hcheck hr
      rw [← hf₁] at hx
      obtain ⟨t, a₂, ht, rfl⟩ := exists_check hx hr₁
      rw [Typed.Expr.ty_relabel] at hbool hunit
      refine ⟨_, a₂, check_branch_eq_some.mpr ⟨c, t, _, a₁, a₂, hcheck, ?_, ht,
        check_unit_eq_some.mpr ⟨rfl, rfl⟩, ?_, rfl⟩, ?_⟩
      · rw [hbool]
        rfl
      · rw [hunit]
        rfl
      · rw [Typed.Expr.relabel, hunit]
        rfl
  | .letIn declarations body _, w, a, te, h, hr => by
    cases h with
    | letIn hds hx =>
      rw [← view_openLet a.next] at hds
      obtain ⟨ds, a₁, hcheck, rfl, rfl⟩ := exists_checkDeclarations hds hr.openLet rfl rfl
      have hr₁ := (checkDeclarations_grows hcheck hr.openLet rfl rfl).ready hr.openLet
      obtain ⟨x, a₂, hbody, rfl⟩ := exists_check hx hr₁
      obtain ⟨root?, a₃, hroot⟩ := exists_rootFor x.ty a₂
      refine ⟨_, _, check_let_eq_some.mpr ⟨ds, a₁, x, a₂, a₃, root?, hcheck, hbody, hroot, rfl, rfl⟩,
        ?_⟩
      rw [Typed.Expr.relabel, Typed.Expr.ty_relabel]
      rfl
  | .procedure literal, w, a, te, h, hr => by cases h
  | .block body _, w, a, te, h, hr => by
    cases h with
    | block hes =>
      obtain ⟨es, a', hall, rfl⟩ := exists_checkAll hes hr
      refine ⟨_, a', check_block_eq_some.mpr ⟨es, hall, rfl⟩, ?_⟩
      rw [Typed.Expr.relabel, Typed.Expr.last_ty_relabelAll]
      rfl

theorem exists_checkAll : ∀ {es : List Expr} {w : Outside} {a : Activation}
    {tes : List Typed.Expr}, ElaborateAll (typesOf w.globals) (view w a.frames) es tes →
      Ready False w a →
      ∃ tes' a', checkAll w es a = some (tes', a') ∧ Typed.Expr.relabelAll .forget tes' = tes
  | [], w, a, tes, h, hr => by
    cases h
    exact ⟨[], a, checkAll_nil_eq_some.mpr ⟨rfl, rfl⟩, rfl⟩
  | e :: more, w, a, tes, h, hr => by
    cases h with
    | cons he hes =>
      obtain ⟨te, a₁, hcheck, rfl⟩ := exists_check he hr
      obtain ⟨hf, -, hr₁⟩ := check_frames hcheck hr
      rw [← hf] at hes
      obtain ⟨rest, a₂, hall, rfl⟩ := exists_checkAll hes hr₁
      exact ⟨te :: rest, a₂, checkAll_cons_eq_some.mpr ⟨te, a₁, rest, hcheck, hall, rfl⟩, rfl⟩

theorem exists_checkArguments : ∀ {es : List Expr} {w : Outside} {a : Activation}
    {tes : List Typed.Expr}, ElaborateAll (typesOf w.globals) (view w a.frames) es tes →
      Ready False w a → es.length = tes.length ∧
      ∃ tes' a', checkArguments w es (tes.map (·.ty)) a = some (tes', a') ∧
        Typed.Expr.relabelAll .forget tes' = tes
  | [], w, a, tes, h, hr => by
    cases h
    exact ⟨rfl, [], a, checkArguments_nil_eq_some.mpr ⟨rfl, rfl⟩, rfl⟩
  | e :: more, w, a, tes, h, hr => by
    cases h with
    | cons he hes =>
      obtain ⟨te, a₁, hcheck, rfl⟩ := exists_check he hr
      obtain ⟨hf, -, hr₁⟩ := check_frames hcheck hr
      rw [← hf] at hes
      obtain ⟨hl, rest, a₂, hall, rfl⟩ := exists_checkArguments hes hr₁
      refine ⟨congrArg (· + 1) hl, te :: rest, a₂, ?_, rfl⟩
      refine checkArguments_cons_eq_some.mpr ⟨te, a₁, rest, hcheck, ?_, hall, rfl⟩
      exact (Typed.Expr.ty_relabel te).symm ▸ Ty.agrees_self te.ty

theorem exists_checkDeclarations : ∀ {ds : List (Declaration Expr)} {w : Outside}
    {a : Activation} {tds : List (String × Typed.Expr)} {Γ : Env} {f : Frame} {fs : List Frame}
    {scope : Nat}, ElaborateDeclarations (typesOf w.globals) (view w a.frames) ds tds Γ →
      Ready False w a → a.frames = f :: fs → f.scope = scope →
      ∃ tds' a', checkDeclarations w scope ds a = some (tds', a') ∧
        Typed.Expr.relabelDeclarations .forget tds' = tds ∧ Γ = view w a'.frames
  | [], w, a, tds, Γ, f, fs, _, h, hr, hf, _ => by
    cases h
    exact ⟨[], a, checkDeclarations_nil_eq_some.mpr ⟨rfl, rfl⟩, rfl, rfl⟩
  | ⟨z, type?, value, s⟩ :: more, w, a, tds, Γ, f, fs, _, h, hr, hf, rfl => by
    cases h with
    | cons he hty hds =>
      obtain ⟨x, a₁, hcheck, rfl⟩ := exists_check he hr
      obtain ⟨hg, ht⟩ := check_grows hcheck hr
      have hd := hg.declares hr hf z ht
      obtain ⟨f', fs', hf', hs⟩ := hd.frames_eq hf
      have hview := @view_define w f fs (hr.head_not_mem hf) z x.ty
      rw [← hf, ← hg.frames.eq_of_settled hr.known] at hview
      rw [Typed.Expr.ty_relabel] at hty hds
      rw [← hg.frames.eq_of_settled hr.known, ← hview] at hds
      obtain ⟨rest, a₂, hrest, rfl, rfl⟩ := exists_checkDeclarations hds (hd.ready hr) hf' hs
      refine ⟨(z, x) :: rest, a₂, checkDeclarations_cons_eq_some.mpr
        ⟨x, a₁, rest, hcheck, agrees_of_denotes hty, hrest, rfl⟩, rfl, rfl⟩

theorem exists_checkProcedure : ∀ {literal : Procedure Expr} {w : Outside} {n : Nat}
    {P : Typed.Procedure Typed.Expr} {Γ : Env},
    ElaborateProcedure (typesOf w.globals) Γ literal P →
      (∀ x t, w.globals.get? x = some t → t.settled = true) → Γ.enter = view w [] →
      ∃ P' n', checkProcedure w n literal = some (P', n') ∧ P'.relabel .forget = P
  | ⟨parameters, result?, body, span⟩, w, n, P, Γ, h, hg, hΓ => by
    cases h with
    | @intro _ _ _ _ _ tys te hnames hps hbody hresult =>
      have hready : Ready False w
          ⟨[.ofParameters n ((parameters.map (·.name)).zip tys)], 0, n + 1⟩ :=
        .ofParameters (fun p hp => .inl (settled_of_has hps _ (List.of_mem_zip hp).2)) hg
      rw [hΓ, ← view_ofParameters n] at hbody
      obtain ⟨e, ⟨fs, slots, n'⟩, hcheck, rfl⟩ := exists_check hbody hready
      rw [Typed.Expr.ty_relabel] at hresult
      refine ⟨_, n', (checkProcedure_written (isSome_of_has hps)).mpr
        ⟨hnames, tys, e, slots, fs, hps, hcheck, hresult, rfl⟩, ?_⟩
      rw [Typed.Procedure.relabel, Typed.Expr.ty_relabel]
      rfl

end

end Lexical

end RootedC
