import Mathlib.Data.List.Find
import RootedC.Proofs.Typing.Activations
import RootedC.Proofs.Typing.Leniency

/-!
Why a body is checked at most twice. A pass tells the type of a parameter exactly if the type is
written or some unary operator stands directly before the parameter, and it leaves the others as
they are. The second pass meets the same operators as the first one, so it finds no more types; a
parameter that the first pass left open can only be refused.
-/
namespace RootedC

namespace Lexical

/-- The type of a name in the activation. -/
def typeOf? (x : String) (fs : List Frame) : Option Ty := (Frame.find x 0 fs).map BindingSite.ty

section Frames
variable {x z : String} {f f' : Frame} {fs fs' : List Frame}

theorem typeOf?_cons_none (h : f.bindings.get? x = none) :
    typeOf? x (f :: fs) = typeOf? x fs := by
  rw [typeOf?, Frame.find, h]
  exact Frame.map_ty_find x 1 fs

theorem typeOf?_define_of_ne (scope : Nat) (t : Ty) (fs : List Frame) (h : x ≠ z) :
    typeOf? x (fs.map (Frame.define scope z t)) = typeOf? x fs := by
  rw [typeOf?, Frame.find_define_of_ne _ _ _ _ h, typeOf?]

theorem isSome_get?_bind {bs : Bindings Ty} (h : (bs.get? x).isSome = true) (t : Ty) :
    ((bs.bind z t).get? x).isSome = true := by
  by_cases hxz : x = z
  · subst hxz
    rw [Bindings.get?_bind_self]
    rfl
  · rwa [Bindings.get?_bind_of_ne _ _ hxz]

/-- A name that the innermost frame binds keeps its type in the frames around. -/
theorem Filled.typeOf?_hidden (h : Filled (f :: fs) (f' :: fs'))
    (hf : f.scope ∉ fs.map Frame.scope) (hx : (f.bindings.get? x).isSome = true) :
    (f'.bindings.get? x).isSome = true ∧ typeOf? x fs' = typeOf? x fs := by
  generalize hfs : f :: fs = ffs at h
  generalize hgs : f' :: fs' = ggs at h
  induction h generalizing f fs with
  | refl =>
    subst hgs
    cases hfs
    exact ⟨hx, rfl⟩
  | @step _ _ y i level scope t hy ht _ ih =>
    subst hfs
    have hmap : Frame.define scope y t f :: fs.map (Frame.define scope y t) =
        (f :: fs).map (Frame.define scope y t) := rfl
    have hbinds : ((Frame.define scope y t f).bindings.get? x).isSome = true := by
      unfold Frame.define
      split
      · exact isSome_get?_bind hx t
      · exact hx
    have hnot : (Frame.define scope y t f).scope ∉
        (fs.map (Frame.define scope y t)).map Frame.scope := by
      rwa [Frame.scope_define, Frame.map_scope_define]
    obtain ⟨hsome, htype⟩ := ih hnot hbinds hmap hgs
    refine ⟨hsome, htype.trans ?_⟩
    by_cases hxy : x = y
    · subst hxy
      obtain ⟨u, hu⟩ := Option.isSome_iff_exists.mp hx
      simp only [Frame.find, hu, Option.some.injEq, BindingSite.mk.injEq] at hy
      rw [Frame.map_define_of_not_mem (hy.2.2 ▸ hf)]
    · exact typeOf?_define_of_ne scope t fs hxy

end Frames

section Passes
variable {holes : Prop} {w : Outside} {x : String}

theorem Grows.hidden {a a' : Activation} (h : Grows a a') (hr : Ready holes w a) {f : Frame}
    {fs : List Frame} (hf : a.frames = f :: fs) (hx : (f.bindings.get? x).isSome = true) :
    ∃ f' fs', a'.frames = f' :: fs' ∧ f'.scope = f.scope ∧ (f'.bindings.get? x).isSome = true ∧
      typeOf? x fs' = typeOf? x fs := by
  have hfill := h.frames
  rw [hf] at hfill
  have hnot := hr.head_not_mem hf
  obtain ⟨f', fs', hf', hs, -⟩ := hfill.of_cons hnot
  rw [hf'] at hfill
  obtain ⟨hsome, htype⟩ := hfill.typeOf?_hidden hnot hx
  exact ⟨f', fs', hf', hs, hsome, htype⟩

/-- After a name is declared in a let, the rest of the declarations does not reach an outer one. -/
theorem checkDeclarations_hidden {ds : List (Declaration Expr)} {a a' : Activation}
    {tds : List (String × Typed.Expr)} {f : Frame} {fs : List Frame}
    (h : checkDeclarations w f.scope ds a = some (tds, a')) (hr : Ready holes w a)
    (hf : a.frames = f :: fs) (hx : (f.bindings.get? x).isSome = true) :
    ∃ f' fs', a'.frames = f' :: fs' ∧ (f'.bindings.get? x).isSome = true ∧
      typeOf? x fs' = typeOf? x fs := by
  induction ds generalizing a f fs tds with
  | nil =>
    obtain ⟨-, rfl⟩ := checkDeclarations_nil_eq_some.mp h
    exact ⟨f, fs, hf, hx, rfl⟩
  | cons d more ih =>
    obtain ⟨v, a₁, rest, hv, -, hm, -⟩ := checkDeclarations_cons_eq_some.mp h
    obtain ⟨hg, ht⟩ := check_grows hv hr
    have hd := hg.declares hr hf d.name ht
    obtain ⟨f₁, fs₁, hf₁, hs, hx₁, htype⟩ := hg.hidden hr hf hx
    have hnot := (hg.ready hr).head_not_mem hf₁
    rw [← hs] at hm hd
    have hf₂ := frames_declared hnot d.name v.ty
    rw [← hf₁] at hf₂
    obtain ⟨f', fs', hf', hx', htype'⟩ := ih (f := ⟨f₁.scope, f₁.bindings.bind d.name v.ty⟩) hm
      (hd.ready hr) hf₂ (isSome_get?_bind hx₁ v.ty)
    exact ⟨f', fs', hf', hx', htype'.trans htype⟩

end Passes

theorem operatorsOn_operand {x : String} {operator : Token} {operand : Expr} {span : Span}
    (h : (Expr.unary operator operand span).operatorsOn x = []) : operand.operatorsOn x = [] := by
  cases operand with
  | name y s => rw [Expr.operatorsOn]
  | _ => exact h

/-- Another operator fills another hole. -/
theorem typeOf?_of_fillHole {w : Outside} {x : String} {operator : Token} {operand : Expr}
    {span : Span} {op : UnaryOp} {v y : Typed.Expr} {a a₁ a' : Activation}
    (hop : UnaryOp.ofKind? operator.kind = some op)
    (hx : (Expr.unary operator operand span).operatorsOn x = [])
    (hv : check w operand a = some (v, a₁)) (hfill : Pass.fillHole op.ty v a₁ = some (y, a')) :
    typeOf? x a'.frames = typeOf? x a₁.frames := by
  rcases fillHole_eq_some.mp hfill with ⟨_, _, z, _, _, rfl, -, rfl⟩ | ⟨-, -, rfl⟩
  · obtain ⟨rfl, -, -⟩ := check_eq_name hv
    refine typeOf?_define_of_ne _ _ _ ?_
    rintro rfl
    simp [Expr.operatorsOn, hop] at hx
  · rfl

mutual

/-- A pass changes the type of no name that no operator stands before. -/
theorem check_keeps {holes : Prop} {w : Outside} {x : String} : ∀ {e : Expr} {a a' : Activation}
    {te : Typed.Expr}, check w e a = some (te, a') → Ready holes w a → e.operatorsOn x = [] →
      typeOf? x a'.frames = typeOf? x a.frames
  | .number _ _, a, a', te, h, hr, hx => by
    obtain ⟨-, rfl⟩ := check_number_eq_some.mp h
    rfl
  | .text _ _, a, a', te, h, hr, hx => by
    obtain ⟨-, rfl⟩ := check_text_eq_some.mp h
    rfl
  | .boolean _ _, a, a', te, h, hr, hx => by
    obtain ⟨-, rfl⟩ := check_boolean_eq_some.mp h
    rfl
  | .unit _, a, a', te, h, hr, hx => by
    obtain ⟨-, rfl⟩ := check_unit_eq_some.mp h
    rfl
  | .name _ _, a, a', te, h, hr, hx => by
    rw [check] at h
    rw [(checkName_eq_some.mp h).1]
  | .unary _ operand _, a, a', te, h, hr, hx => by
    obtain ⟨op, v, a₁, y, hop, hv, hfill, -, -⟩ := check_unary_eq_some.mp h
    have hoperand := check_keeps hv hr (operatorsOn_operand hx)
    exact (typeOf?_of_fillHole hop hx hv hfill).trans hoperand
  | .binary left _ right _, a, a', te, h, hr, hx => by
    obtain ⟨op, l, r, a₁, -, hl, hright, -⟩ := check_binary_eq_some.mp h
    rw [Expr.operatorsOn, List.append_eq_nil_iff] at hx
    have hr₁ := (check_grows hl hr).1.ready hr
    exact (check_keeps hright hr₁ hx.2).trans (check_keeps hl hr hx.1)
  | .call callee arguments _, a, a', te, h, hr, hx => by
    obtain ⟨c, ps, r, a₁, es, a₂, root?, hc, hlen, hes, hroot, -⟩ := check_call_eq_some.mp h
    obtain ⟨hg, -⟩ := callee_known hr (fun _ _ _ _ hp => checkProcedure_grows hp hr.globals) hc
    have hcallee : a₁.frames = a.frames := by
      rcases checkCallee_eq_some.mp hc with ⟨_, _, -, -, -, -, ha⟩ | ⟨_, _, -, hn⟩
      · rw [ha]
      · rw [(checkCalleeName_eq_some.mp hn).1]
    have hrooted : a'.frames = a₂.frames := by rw [(rootFor_eq_some.mp hroot).2]
    rw [Expr.operatorsOn, List.append_eq_nil_iff] at hx
    rw [hrooted, ← hcallee]
    exact checkArguments_keeps hes (hg.ready hr) hx.2
  | .branch condition thenArm elseArm? _, a, a', te, h, hr, hx => by
    obtain ⟨c, t, f, a₁, a₂, hc, -, ht, hf, -⟩ := check_branch_eq_some.mp h
    have hr₁ := (check_grows hc hr).1.ready hr
    have hr₂ := (check_grows ht hr₁).1.ready hr₁
    cases elseArm? with
    | some elseArm =>
      rw [Expr.operatorsOn, List.append_eq_nil_iff, List.append_eq_nil_iff] at hx
      have hthen := (check_keeps ht hr₁ hx.1.2).trans (check_keeps hc hr hx.1.1)
      exact (check_keeps hf hr₂ hx.2).trans hthen
    | none =>
      rw [Expr.operatorsOn, List.append_nil, List.append_eq_nil_iff] at hx
      obtain ⟨-, rfl⟩ := check_unit_eq_some.mp hf
      exact (check_keeps ht hr₁ hx.2).trans (check_keeps hc hr hx.1)
  | .letIn declarations body _, a, a', te, h, hr, hx => by
    obtain ⟨ds, a₁, v, a₂, a₃, root?, hds, hv, hroot, rfl, -⟩ := check_let_eq_some.mp h
    have hr₁ := (checkDeclarations_grows hds hr.openLet rfl rfl).ready hr.openLet
    have hg := (check_grows hv hr₁).1
    rw [Expr.operatorsOn, List.append_eq_nil_iff] at hx
    obtain ⟨f₁, fs₁, hf₁, htype, hbinds⟩ := checkDeclarations_keeps hds hr.openLet rfl rfl hx.1
    rw [(rootFor_eq_some.mp hroot).2]
    by_cases hmem : x ∈ declarations.map (·.name)
    · obtain ⟨f₂, fs₂, hf₂, -, -, htype₂⟩ := hg.hidden hr₁ hf₁ (hbinds.mpr hmem)
      simp only [hf₂, List.tail_cons]
      exact htype₂.trans htype
    · rw [if_neg hmem] at hx
      have hnone : f₁.bindings.get? x = none := by
        simpa using fun hsome => hmem (hbinds.mp hsome)
      obtain ⟨f₂, fs₂, hf₂, -, hnone₂, -, -⟩ := hg.frames_cons hr₁ hf₁ hnone
      have hbody := check_keeps hv hr₁ hx.2
      rw [hf₁, hf₂, typeOf?_cons_none hnone, typeOf?_cons_none hnone₂] at hbody
      simp only [hf₂, List.tail_cons]
      exact hbody.trans htype
  | .procedure literal, a, a', te, h, hr, hx => absurd h check_procedure_ne_some
  | .block body _, a, a', te, h, hr, hx => by
    obtain ⟨es, hes, -⟩ := check_block_eq_some.mp h
    rw [Expr.operatorsOn] at hx
    exact checkAll_keeps hes hr hx

theorem checkAll_keeps {holes : Prop} {w : Outside} {x : String} : ∀ {es : List Expr}
    {a a' : Activation} {tes : List Typed.Expr}, checkAll w es a = some (tes, a') →
      Ready holes w a → Expr.operatorsOnAll x es = [] →
      typeOf? x a'.frames = typeOf? x a.frames
  | [], a, a', tes, h, hr, hx => by
    obtain ⟨-, rfl⟩ := checkAll_nil_eq_some.mp h
    rfl
  | e :: more, a, a', tes, h, hr, hx => by
    obtain ⟨te, a₁, rest, he, hm, -⟩ := checkAll_cons_eq_some.mp h
    rw [Expr.operatorsOnAll, List.append_eq_nil_iff] at hx
    have hr₁ := (check_grows he hr).1.ready hr
    exact (checkAll_keeps hm hr₁ hx.2).trans (check_keeps he hr hx.1)

theorem checkArguments_keeps {holes : Prop} {w : Outside} {x : String} : ∀ {es : List Expr}
    {tys : List Ty} {a a' : Activation} {tes : List Typed.Expr},
    checkArguments w es tys a = some (tes, a') → Ready holes w a →
      Expr.operatorsOnAll x es = [] → typeOf? x a'.frames = typeOf? x a.frames
  | [], tys, a, a', tes, h, hr, hx => by
    obtain ⟨-, rfl⟩ := checkArguments_nil_eq_some.mp h
    rfl
  | e :: more, [], a, a', tes, h, hr, hx => by
    rw [checkArguments] at h
    · obtain ⟨-, rfl⟩ := pure_eq_some.mp h
      rfl
    · nofun
  | e :: more, ty :: tys, a, a', tes, h, hr, hx => by
    obtain ⟨te, a₁, rest, he, -, hm, -⟩ := checkArguments_cons_eq_some.mp h
    rw [Expr.operatorsOnAll, List.append_eq_nil_iff] at hx
    have hr₁ := (check_grows he hr).1.ready hr
    exact (checkArguments_keeps hm hr₁ hx.2).trans (check_keeps he hr hx.1)

/-- The frame of a let binds what is declared in it, and a name that it hides keeps its type. -/
theorem checkDeclarations_keeps {holes : Prop} {w : Outside} {x : String} :
    ∀ {ds : List (Declaration Expr)} {a a' : Activation} {tds : List (String × Typed.Expr)}
      {f : Frame} {fs : List Frame}, checkDeclarations w f.scope ds a = some (tds, a') →
      Ready holes w a → a.frames = f :: fs → f.bindings.get? x = none →
      Expr.operatorsOnDeclared x ds = [] →
      ∃ f' fs', a'.frames = f' :: fs' ∧ typeOf? x fs' = typeOf? x fs ∧
        ((f'.bindings.get? x).isSome = true ↔ x ∈ ds.map (·.name))
  | [], a, a', tds, f, fs, h, hr, hf, hnone, hx => by
    obtain ⟨-, rfl⟩ := checkDeclarations_nil_eq_some.mp h
    exact ⟨f, fs, hf, rfl, by simp [hnone]⟩
  | ⟨z, type?, value, s⟩ :: more, a, a', tds, f, fs, h, hr, hf, hnone, hx => by
    obtain ⟨v, a₁, rest, hv, -, hm, -⟩ := checkDeclarations_cons_eq_some.mp h
    obtain ⟨hg, ht⟩ := check_grows hv hr
    have hd := hg.declares hr hf z ht
    obtain ⟨f₁, fs₁, hf₁, hs, hnone₁, hfill, hnot⟩ := hg.frames_cons hr hf hnone
    rw [Expr.operatorsOnDeclared, List.append_eq_nil_iff] at hx
    have hvalue := check_keeps hv hr hx.1
    rw [hf, hf₁, typeOf?_cons_none hnone, typeOf?_cons_none hnone₁] at hvalue
    rw [← hs] at hm hd hnot
    have hf₂ := frames_declared hnot z v.ty
    rw [← hf₁] at hf₂
    by_cases hz : z = x
    · subst hz
      have hself : ((f₁.bindings.bind z v.ty).get? z).isSome = true := by
        rw [Bindings.get?_bind_self]
        rfl
      obtain ⟨f', fs', hf', hsome, htype⟩ := checkDeclarations_hidden
        (f := ⟨f₁.scope, f₁.bindings.bind z v.ty⟩) hm (hd.ready hr) hf₂ hself
      exact ⟨f', fs', hf', htype.trans hvalue, by simp [hsome]⟩
    · rw [if_neg hz] at hx
      obtain ⟨f', fs', hf', htype, hiff⟩ := checkDeclarations_keeps
        (f := ⟨f₁.scope, f₁.bindings.bind z v.ty⟩) hm (hd.ready hr) hf₂
        ((Bindings.get?_bind_of_ne _ _ (Ne.symm hz)).trans hnone₁) hx.2
      refine ⟨f', fs', hf', htype.trans hvalue, hiff.trans ?_⟩
      simp [Ne.symm hz]

end

end Lexical

/-- A parameter whose type no pass over the body tells: none is written, and no unary operator
stands directly before the name where it means the parameter. -/
def Parameter.isUntypedIn (body : Expr) (p : Parameter) : Bool :=
  p.type?.isNone && (body.operatorsOn p.name).isEmpty

namespace Lexical

section Found
variable {w : Outside} {n m : Nat} {ps : List Parameter} {body : Expr} {written tys : List Ty}
  {e e' : Typed.Expr} {a b : Activation}

theorem foundTypes_eq_map (fs : List Frame) (ps : List Parameter) (tys : List Ty) :
    foundTypes fs ((ps.map (·.name)).zip tys) =
      (ps.zip tys).map fun q => (typeOf? q.1.name fs).getD q.2 := by
  rw [foundTypes, List.zip_map_left, List.map_map]
  rfl

/-- What each parameter has before and after a pass. -/
theorem zip_foundTypes (fs : List Frame) (hlen : tys.length = ps.length) :
    ps.zip (foundTypes fs ((ps.map (·.name)).zip tys)) =
        (ps.zip tys).map (fun q => (q.1, (typeOf? q.1.name fs).getD q.2)) ∧
      tys.zip (foundTypes fs ((ps.map (·.name)).zip tys)) =
        (ps.zip tys).map fun q => (q.2, (typeOf? q.1.name fs).getD q.2) := by
  have hps : (ps.zip tys).map Prod.fst = ps := List.map_fst_zip (by omega)
  have htys : (ps.zip tys).map Prod.snd = tys := List.map_snd_zip (by omega)
  rw [foundTypes_eq_map, ← List.zip_map', ← List.zip_map', hps, htys]
  exact ⟨rfl, rfl⟩

theorem typeOf?_ofParameters (hnodup : (ps.map (·.name)).Nodup) (hlen : tys.length = ps.length)
    {q : Parameter × Ty} (hq : q ∈ ps.zip tys) :
    typeOf? q.1.name [.ofParameters n ((ps.map (·.name)).zip tys)] = some q.2 := by
  have hfst : (((ps.map (·.name)).zip tys).map (·.1)).Nodup := by
    rwa [List.map_fst_zip (by simp [hlen])]
  have hmem : (q.1.name, q.2) ∈ (ps.map (·.name)).zip tys := by
    rw [List.zip_map_left]
    exact List.mem_map.mpr ⟨q, hq, rfl⟩
  rw [typeOf?, Frame.find_ofParameters hfst hmem]
  rfl

/-- A pass over a body does not change a type that it starts from and that is known. -/
theorem typeOf?_of_settled (hr : Ready True w a) (h : check w body a = some (e, b)) {x : String}
    {ty : Ty} (hx : typeOf? x a.frames = some ty) (hs : ty.settled = true) :
    typeOf? x b.frames = some ty := by
  obtain ⟨r, hfind, rfl⟩ := Option.map_eq_some_iff.mp hx
  rw [typeOf?, (check_grows h hr).1.frames.find_of_settled hfind hs]
  rfl

/-- The first pass leaves holes at the parameters that are not typed in the body, and only
there. -/
theorem isHole_found (hg : ∀ x t, w.globals.get? x = some t → t.settled = true)
    (hnodup : (ps.map (·.name)).Nodup) (hw : Check.writtenTypes ps = .ok written)
    (h : check w body ⟨[.ofParameters n ((ps.map (·.name)).zip written)], 0, n + 1⟩ = some (e, a)) :
    ∀ q ∈ ps.zip written,
      ((typeOf? q.1.name a.frames).getD q.2).isHole = q.1.isUntypedIn body := by
  obtain ⟨hlen, hknown⟩ := writtenTypes_known hw
  have hr : Ready True w ⟨[.ofParameters n ((ps.map (·.name)).zip written)], 0, n + 1⟩ :=
    .ofParameters (fun p hp => hknown _ (List.of_mem_zip hp).2) hg
  intro q hq
  obtain ⟨p, ty⟩ := q
  have hstart := typeOf?_ofParameters (n := n) hnodup hlen hq
  have hty := List.forall₂_iff_zip.mp (writtenTypes_forall₂ hw) |>.2 hq
  cases hp : p.type? with
  | some t =>
    have hs := TypeExpr.settled_of_toTy (hty.1 t hp)
    have hafter := typeOf?_of_settled hr h hstart hs
    simp only [hafter, Option.getD_some, Parameter.isUntypedIn, hp, Option.isNone_some,
      Bool.false_and]
    exact Ty.isHole_eq_false_of_settled hs
  | none =>
    obtain rfl : ty = .hole := hty.2 hp
    simp only [Parameter.isUntypedIn, hp, Option.isNone_none, Bool.true_and]
    by_cases hops : body.operatorsOn p.name = []
    · have hkeeps := (check_keeps h hr hops).trans hstart
      simp only [hkeeps, hops]
      rfl
    · have hbound : Bound w p.name [.ofParameters n ((ps.map (·.name)).zip written)] := by
        refine .inl ?_
        rw [← Option.isSome_map, ← typeOf?, hstart]
        rfl
      obtain ⟨r, hfind, hs⟩ := check_settles h hr hbound hops
      rw [typeOf?, hfind, List.isEmpty_eq_false_iff.mpr hops]
      exact Ty.isHole_eq_false_of_settled hs

/-- The second pass ends with the types it starts from. -/
theorem foundTypes_again (hg : ∀ x t, w.globals.get? x = some t → t.settled = true)
    (hnodup : (ps.map (·.name)).Nodup) (hw : Check.writtenTypes ps = .ok written)
    (h : check w body ⟨[.ofParameters n ((ps.map (·.name)).zip written)], 0, n + 1⟩ = some (e, a))
    (htys : tys = foundTypes a.frames ((ps.map (·.name)).zip written))
    (h' : check w body ⟨[.ofParameters m ((ps.map (·.name)).zip tys)], 0, m + 1⟩ =
      some (e', b)) :
    foundTypes b.frames ((ps.map (·.name)).zip tys) = tys := by
  obtain ⟨hlen, hknown⟩ := writtenTypes_known hw
  have hlen' : tys.length = ps.length := by simp [htys, foundTypes, hlen]
  have hnamed : ∀ p ∈ (ps.map (·.name)).zip written, p.2.Known True := fun p hp =>
    hknown _ (List.of_mem_zip hp).2
  have hfound : ∀ t ∈ tys, t.Known True := by
    rw [htys]
    exact foundTypes_known (check_body_grows hg _ _ _ _ h hnamed).2 hnamed
  have hr : Ready True w ⟨[.ofParameters m ((ps.map (·.name)).zip tys)], 0, m + 1⟩ :=
    .ofParameters (fun p hp => hfound _ (List.of_mem_zip hp).2) hg
  have hsame : ∀ q ∈ ps.zip tys, typeOf? q.1.name b.frames = some q.2 := by
    intro q hq
    have hstart := typeOf?_ofParameters (n := m) hnodup hlen' hq
    rcases hfound q.2 (List.of_mem_zip hq).2 with hs | ⟨-, hhole⟩
    · exact typeOf?_of_settled hr h' hstart hs
    · -- a hole that is left stands for a parameter that no operator is before
      rw [htys, (zip_foundTypes a.frames hlen).1] at hq
      obtain ⟨q₀, hq₀, rfl⟩ := List.mem_map.mp hq
      have huntyped := isHole_found hg hnodup hw h q₀ hq₀
      rw [show (typeOf? q₀.1.name a.frames).getD q₀.2 = .hole from hhole] at huntyped
      have hops : body.operatorsOn q₀.1.name = [] := by
        have hand := huntyped.symm
        simp only [Parameter.isUntypedIn, Ty.isHole, Bool.and_eq_true, List.isEmpty_iff] at hand
        exact hand.2
      exact (check_keeps h' hr hops).trans hstart
  rw [foundTypes_eq_map]
  calc (ps.zip tys).map (fun q => (typeOf? q.1.name b.frames).getD q.2)
      = (ps.zip tys).map Prod.snd := List.map_congr_left fun q hq => by rw [hsame q hq]; rfl
    _ = tys := List.map_snd_zip (by omega)

end Found

end Lexical

namespace Procedure

open Check

/-- The first parameter that is not typed in the body. -/
def untyped? (literal : Procedure Expr) : Option Parameter :=
  literal.parameters.find? (·.isUntypedIn literal.body)

/-- One pass over the body, in a scope of its own with some types for the parameters. -/
def pass (parent : Nat) (literal : Procedure Expr) (tys : List Ty) : Check (Nat × Typed.Expr) := do
  let scope ← openProcedure parent ((literal.parameters.map (·.name)).zip tys)
  let body ← literal.body.check scope
  return (scope, body)

/-- The passes over the body from the types that are written: one, and another one if it has filled
a hole. What counts are the types of the parameters, the scope and the body. -/
def passesFrom (parent : Nat) (literal : Procedure Expr) (written : List Ty) :
    Check (List Ty × Nat × Typed.Expr) := do
  let first ← literal.pass parent written
  let found := foundTypes (← get) first.1 ((literal.parameters.map (·.name)).zip written)
  if anyFilled written found then return (found, ← literal.pass parent found)
  else return (written, first)

/-- A check of a procedure up to what is asked of the parameters and the result in the end. -/
def passes (parent : Nat) (literal : Procedure Expr) : Check (List Ty × Nat × Typed.Expr) := do
  checkDistinct [] literal.parameters
  let written ← lift (writtenTypes literal.parameters)
  literal.passesFrom parent written

theorem check_eq_passes (parent : Nat) (literal : Procedure Expr) :
    literal.check parent = literal.passes parent >>= fun r =>
      closeProcedure literal.parameters r.1 literal.result? r.2.1 r.2.2 literal.span := by
  obtain ⟨parameters, result?, body, span⟩ := literal
  rw [Procedure.check]
  simp only [passes, passesFrom, pass, bind_assoc, pure_bind]
  refine bind_congr fun _ => bind_congr fun written => bind_congr fun first => ?_
  refine bind_congr fun firstBody => bind_congr fun c => ?_
  split
  · simp only [bind_assoc, pure_bind]
  · rw [pure_bind]

variable {parent : Nat} {literal : Procedure Expr} {c c' : Context}

theorem cause_of_checkDistinct {seen : List String} {ps : List Parameter} {d : Diagnostic}
    (h : checkDistinct seen ps c = .error d c') : ∃ x, d.cause = .repeatedParameter x := by
  induction ps generalizing seen with
  | nil => cases h
  | cons p more ih =>
    rw [checkDistinct] at h
    split at h
    · cases h
      exact ⟨p.name, rfl⟩
    · exact ih h

/-- Before the passes the parameters themselves can be refused, but not for lack of a type. -/
theorem passes_cases (parent : Nat) (literal : Procedure Expr) (c : Context) :
    (∃ d, literal.passes parent c = .error d c ∧ ∀ x, d.cause ≠ .ambiguousParameter x) ∨
      (literal.parameters.map (·.name)).Nodup ∧ ∃ written,
        writtenTypes literal.parameters = .ok written ∧
        literal.passes parent c = literal.passesFrom parent written c := by
  have hdistinct := Lexical.checkDistinct_run [] literal.parameters c
  unfold passes
  split at hdistinct
  · next hnodup =>
    rw [bind_run, hdistinct]
    cases hw : writtenTypes literal.parameters with
    | ok written => exact .inr ⟨hnodup.1, written, rfl, rfl⟩
    | error d =>
      exact .inl ⟨d, rfl, fun x => Cause.ne_of_isOfType (writtenTypes_refused _ d hw) rfl⟩
  · obtain ⟨d, hdistinct⟩ := hdistinct
    obtain ⟨y, hy⟩ := cause_of_checkDistinct hdistinct
    rw [bind_run, hdistinct]
    refine .inl ⟨d, rfl, fun x => ?_⟩
    rw [hy]
    nofun

theorem passes_eq_ok {r : List Ty × Nat × Typed.Expr} (h : literal.passes parent c = .ok r c') :
    (literal.parameters.map (·.name)).Nodup ∧ ∃ written first c₁,
      writtenTypes literal.parameters = .ok written ∧
      literal.pass parent written c = .ok first c₁ ∧
      let found := foundTypes c₁ first.1 ((literal.parameters.map (·.name)).zip written)
      (anyFilled written found = true ∧ r.1 = found) ∨
        anyFilled written found = false ∧ r.1 = written := by
  rcases passes_cases parent literal c with ⟨d, herror, -⟩ | ⟨hnodup, written, hw, hpasses⟩
  · rw [h] at herror
    cases herror
  · rw [hpasses] at h
    obtain ⟨first, c₁, hfirst, hrest⟩ := bind_eq_ok.mp h
    refine ⟨hnodup, written, first, c₁, hw, hfirst, ?_⟩
    obtain ⟨_, _, hget, hrest⟩ := bind_eq_ok.mp hrest
    cases hget
    split at hrest
    · next hfilled =>
      obtain ⟨second, c₂, -, hlast⟩ := bind_eq_ok.mp hrest
      cases hlast
      exact .inl ⟨hfilled, rfl⟩
    · next hfilled =>
      cases hrest
      exact .inr ⟨by simpa using hfilled, rfl⟩

/-- A pass, as the frames see it. -/
theorem pass_eq_ok {site : Lexical.Site} {n : Nat}
    (hp : site.outer.head?.map Prod.fst = some parent) (h : Lexical.Holds site c n)
    {tys : List Ty} {r : Nat × Typed.Expr} (hpass : literal.pass parent tys c = .ok r c') :
    r.1 = n ∧ ∃ a, Lexical.Shows site [n] c' a ∧
      Lexical.check site.outside literal.body
        ⟨[.ofParameters n ((literal.parameters.map (·.name)).zip tys)], 0, n + 1⟩ =
          some (r.2, a) := by
  obtain ⟨c₁, hopen, hs⟩ := h.openProcedure hp ((literal.parameters.map (·.name)).zip tys)
  obtain ⟨scope, c₂, hscope, hpass⟩ := bind_eq_ok.mp hpass
  rw [hopen] at hscope
  cases hscope
  obtain ⟨body, c₃, hbody, hlast⟩ := bind_eq_ok.mp hpass
  cases hlast
  obtain ⟨a, ha, hshows⟩ := (Lexical.check_agrees literal.body c₁ _ hs).exists_eq_some hbody
  exact ⟨rfl, a, hshows.1, ha⟩

theorem checkNoHole_eq (ps : List (Parameter × Ty)) (c : Context) :
    checkNoHole ps c = match ps.find? fun q => q.2.isHole with
      | some q => .error ⟨.ambiguousParameter q.1.name, q.1.span.start⟩ c
      | none => .ok () c := by
  induction ps with
  | nil => rfl
  | cons q more ih =>
    obtain ⟨p, ty⟩ := q
    rw [checkNoHole]
    cases hty : ty.isHole with
    | true =>
      simp only [List.find?_cons, hty]
      rfl
    | false =>
      simp only [List.find?_cons, hty]
      exact ih

/-- The last checks of a procedure refuse the first parameter that still is a hole. -/
theorem closeProcedure_ambiguous {ps : List Parameter} {tys : List Ty} {result? : Option TypeExpr}
    {scope : Nat} {body : Typed.Expr} {span : Span} {x : String} {position : Position} :
    (∃ c', closeProcedure ps tys result? scope body span c =
        .error ⟨.ambiguousParameter x, position⟩ c') ↔
      ∃ q ∈ (ps.zip tys).find? (fun q => q.2.isHole), q.1.name = x ∧ q.1.span.start = position := by
  unfold closeProcedure
  rw [bind_run, checkNoHole_eq]
  cases (ps.zip tys).find? fun q => q.2.isHole with
  | some q => simp
  | none =>
    refine ⟨fun ⟨c', h⟩ => ?_, by simp⟩
    cases result? with
    | none => cases h
    | some t =>
      cases ht : t.toTy with
      | error d =>
        simp only [bind_run, lift, ht, fail, EStateM.Result.error.injEq] at h
        have hcause : d.cause = .ambiguousParameter x := congrArg Diagnostic.cause h.1
        exact absurd hcause (Cause.ne_of_isOfType (t.toTy_refused d ht) rfl)
      | ok declared =>
        simp only [bind_run, lift, ht, pure_run] at h
        split at h
        · cases h
        · cases h

/-- Only a hole that is left tells the types used last from those written. -/
theorem isHole_passes {site : Lexical.Site} {n : Nat}
    (hp : site.outer.head?.map Prod.fst = some parent) (h : Lexical.Holds site c n)
    (hg : ∀ x t, site.outside.globals.get? x = some t → t.settled = true)
    {r : List Ty × Nat × Typed.Expr} (hr : literal.passes parent c = .ok r c') :
    r.1.length = literal.parameters.length ∧
      ∀ q ∈ literal.parameters.zip r.1, q.2.isHole = q.1.isUntypedIn literal.body := by
  obtain ⟨hnodup, written, first, c₁, hw, hfirst, hlast⟩ := passes_eq_ok hr
  obtain ⟨hn, a, hs, hbody⟩ := pass_eq_ok hp h hfirst
  have hlen := (Lexical.writtenTypes_known hw).1
  have hholes := Lexical.isHole_found hg hnodup hw hbody
  rw [hn, hs.foundTypes_eq] at hlast
  rcases hlast with ⟨-, hfound⟩ | ⟨hnone, hwritten⟩
  · rw [hfound, (Lexical.zip_foundTypes a.frames hlen).1]
    refine ⟨by simp [Lexical.foundTypes, hlen], fun q hq => ?_⟩
    obtain ⟨q₀, hq₀, rfl⟩ := List.mem_map.mp hq
    exact hholes q₀ hq₀
  · rw [hwritten]
    refine ⟨hlen, fun q hq => ?_⟩
    rw [← hholes q hq]
    cases hhole : q.2.isHole with
    | true =>
      rw [anyFilled, (Lexical.zip_foundTypes a.frames hlen).2, List.any_eq_false] at hnone
      simpa [hhole] using hnone _ (List.mem_map_of_mem hq)
    | false =>
      have hty := (List.forall₂_iff_zip.mp (Lexical.writtenTypes_forall₂ hw)).2 hq
      rw [hholes q hq, Parameter.isUntypedIn]
      cases hp : q.1.type? with
      | some t => rfl
      | none =>
        rw [hty.2 hp] at hhole
        cases hhole

theorem pass_steps (parent : Nat) (literal : Procedure Expr) (tys : List Ty) :
    Steps parent (literal.pass parent tys) :=
  .openProcedure _ fun inner _ => (literal.body.check_steps inner).bind fun _ => .pure _

/-- A pass fails only at the body. -/
theorem pass_eq_error {site : Lexical.Site} {n : Nat}
    (hp : site.outer.head?.map Prod.fst = some parent) (h : Lexical.Holds site c n)
    (hlt : parent < c.scopes.size) {tys : List Ty} {d : Diagnostic}
    (hpass : literal.pass parent tys c = .error d c') :
    ∃ scope c₁, c.Reaches c₁ ∧ literal.body.check scope c₁ = .error d c' := by
  obtain ⟨c₁, hopen, -⟩ := h.openProcedure hp ((literal.parameters.map (·.name)).zip tys)
  have hsteps := Steps.openProcedure ((literal.parameters.map (·.name)).zip tys)
    (f := fun scope => (pure scope : Check Nat)) (fun _ _ => .pure _) c hlt
  rw [bind_pure, hopen] at hsteps
  rcases bind_eq_error.mp hpass with herror | ⟨scope, c₂, hscope, hrest⟩
  · rw [hopen] at herror
    cases herror
  · rw [hopen] at hscope
    cases hscope
    rcases bind_eq_error.mp hrest with hbody | ⟨body, c₂, -, hlast⟩
    · exact ⟨n, c₁, hsteps, hbody⟩
    · cases hlast

/-- Passes that fail for a parameter without a type fail for that of another procedure. -/
theorem passes_ambiguous {site : Lexical.Site} {n : Nat}
    (hp : site.outer.head?.map Prod.fst = some parent) (h : Lexical.Holds site c n)
    (hlt : parent < c.scopes.size) {x : String} {position : Position}
    (herror : literal.passes parent c = .error ⟨.ambiguousParameter x, position⟩ c') :
    ∃ scope c₁, c.Reaches c₁ ∧
      literal.body.check scope c₁ = .error ⟨.ambiguousParameter x, position⟩ c' := by
  rcases passes_cases parent literal c with ⟨d, hd, hcause⟩ | ⟨-, written, -, hpasses⟩
  · rw [herror] at hd
    cases hd
    exact absurd rfl (hcause x)
  rw [hpasses] at herror
  rcases bind_eq_error.mp herror with hfirst | ⟨first, c₁, hfirst, hrest⟩
  · exact pass_eq_error hp h hlt hfirst
  have hreach : c.Reaches c₁ := by
    have hsteps := pass_steps parent literal written c hlt
    rwa [hfirst] at hsteps
  obtain ⟨-, a, hs, -⟩ := pass_eq_ok hp h hfirst
  rcases bind_eq_error.mp hrest with hget | ⟨_, _, hget, hsecond⟩
  · cases hget
  cases hget
  split at hsecond
  · rcases bind_eq_error.mp hsecond with hfail | ⟨second, c₂, -, hlast⟩
    · obtain ⟨scope, c₂, hreach', hbody⟩ :=
        pass_eq_error hp hs.left (Nat.lt_of_lt_of_le hlt hreach.size_le) hfail
      exact ⟨scope, c₂, hreach.trans hreach', hbody⟩
    · cases hlast
  · cases hsecond

end Procedure

open Lexical in
/-- One more pass is enough. Where the passes over the body of a procedure go through, the procedure
is refused for a parameter without a type exactly if some parameter is not typed in the body, and
then for the first such parameter; otherwise a refusal of that kind comes out of the body. After a
first pass the holes that are left are the parameters that are not typed in the body, and a second
pass changes none of the types found. -/
theorem Procedure.check_repass {c : Context} {parent : Nat} (hc : c.Reachable)
    (hp : parent < c.scopes.size) (literal : Procedure Expr) :
    (∀ r c₁, literal.passes parent c = .ok r c₁ → ∀ x position,
      (∃ c', literal.check parent c = .error ⟨.ambiguousParameter x, position⟩ c') ↔
        ∃ p ∈ literal.untyped?, p.name = x ∧ p.span.start = position) ∧
    (∀ x position c', literal.check parent c = .error ⟨.ambiguousParameter x, position⟩ c' →
      (∃ r c₁, literal.passes parent c = .ok r c₁) ∨
        ∃ scope c₁, c.Reaches c₁ ∧
          literal.body.check scope c₁ = .error ⟨.ambiguousParameter x, position⟩ c') ∧
    ∀ written first c₁, (literal.parameters.map (·.name)).Nodup →
      Check.writtenTypes literal.parameters = .ok written →
      literal.pass parent written c = .ok first c₁ →
      let found := Check.foundTypes c₁ first.1 ((literal.parameters.map (·.name)).zip written)
      (∀ q ∈ literal.parameters.zip found, q.2.isHole = q.1.isUntypedIn literal.body) ∧
      ∀ second c₂, literal.pass parent found c₁ = .ok second c₂ →
        Check.foundTypes c₂ second.1 ((literal.parameters.map (·.name)).zip found) = found := by
  obtain ⟨site, hhead, hholds, hg⟩ := hc.holds hp
  refine ⟨fun r c₁ hr x position => ?_, fun x position c' herror => ?_, ?_⟩
  · obtain ⟨hlen, hholes⟩ := isHole_passes hhead hholds hg hr
    have hfind : ((literal.parameters.zip r.1).find? fun q => q.2.isHole).map Prod.fst =
        literal.untyped? := by
      have hps : (literal.parameters.zip r.1).map Prod.fst = literal.parameters :=
        List.map_fst_zip (by omega)
      rw [untyped?, ← hps, List.find?_map, hps, List.find?_congr hholes]
      rfl
    rw [check_eq_passes]
    simp only [bind_run, hr]
    rw [closeProcedure_ambiguous, ← hfind]
    simp
  · rw [check_eq_passes] at herror
    rcases bind_eq_error.mp herror with hpasses | ⟨r, c₁, hr, -⟩
    · exact .inr (passes_ambiguous hhead hholds hp hpasses)
    · exact .inl ⟨r, c₁, hr⟩
  · intro written first c₁ hnodup hw hfirst
    obtain ⟨hn, a, hs, hbody⟩ := pass_eq_ok hhead hholds hfirst
    have hlen := (writtenTypes_known hw).1
    rw [hn, hs.foundTypes_eq]
    refine ⟨fun q hq => ?_, fun second c₂ hsecond => ?_⟩
    · rw [(zip_foundTypes a.frames hlen).1] at hq
      obtain ⟨q₀, hq₀, rfl⟩ := List.mem_map.mp hq
      exact isHole_found hg hnodup hw hbody q₀ hq₀
    · obtain ⟨hn', b, hs', hbody'⟩ := pass_eq_ok hhead hs.left hsecond
      rw [hn', hs'.foundTypes_eq]
      exact foundTypes_again hg hnodup hw hbody rfl hbody'

/-- `proc(a, b) { !a; let c = b { -c } }` -/
def Procedure.copied : Procedure Expr :=
  let s : Span := .empty .nowhere
  let negated : Expr := .unary ⟨.dash, "-", s⟩ (.name "c" s) s
  ⟨[⟨"a", none, s⟩, ⟨"b", none, s⟩], none, .block [.unary ⟨.bang, "!", s⟩ (.name "a" s) s,
    .letIn [⟨"c", none, .name "b" s, s⟩] negated s] s, s⟩

/-- The operator before the copy tells the type of the copy only, in the second pass as well. -/
theorem Procedure.copied_refused :
    (∃ c', copied.check 0 .initial = .error ⟨.ambiguousParameter "b", .nowhere⟩ c') ∧
    ∃ first c₁ second c₂, copied.pass 0 [.hole, .hole] .initial = .ok first c₁ ∧
      copied.pass 0 [.bool, .hole] c₁ = .ok second c₂ ∧
      Check.foundTypes c₂ second.1 [("a", .bool), ("b", .hole)] = [.bool, .hole] := by
  have hscope : 0 < Context.initial.scopes.size := by decide
  obtain ⟨howner, -, hagain⟩ := check_repass .refl hscope copied
  constructor
  · have hpasses : (copied.passes 0 .initial matches .ok ..) = true := by decide +kernel
    generalize hr : copied.passes 0 .initial = r at hpasses
    cases r with
    | error d c' => cases hpasses
    | ok r c₁ => exact (howner r c₁ hr _ _).mpr ⟨_, rfl, rfl, rfl⟩
  · have hboth : (match copied.pass 0 [.hole, .hole] .initial with
        | .ok first c₁ =>
          Check.foundTypes c₁ first.1 [("a", .hole), ("b", .hole)] == [.bool, .hole] &&
            (copied.pass 0 [.bool, .hole] c₁ matches .ok ..)
        | .error _ _ => false) = true := by
      decide +kernel
    cases hrun : copied.pass 0 [.hole, .hole] .initial with
    | error d c' =>
      rw [hrun] at hboth
      cases hboth
    | ok first c₁ =>
      rw [hrun] at hboth
      obtain ⟨hfound, hsecond⟩ := Bool.and_eq_true_iff.mp hboth
      cases hrun' : copied.pass 0 [.bool, .hole] c₁ with
      | error d c' =>
        rw [hrun'] at hsecond
        cases hsecond
      | ok second c₂ =>
        have hsame := (hagain [.hole, .hole] first c₁ (by decide) rfl hrun).2 second c₂
        have hnamed : Check.foundTypes c₁ first.1 ((copied.parameters.map (·.name)).zip
            [.hole, .hole]) = [.bool, .hole] := eq_of_beq hfound
        rw [hnamed] at hsame
        exact ⟨first, c₁, second, c₂, rfl, hrun', hsame hrun'⟩

end RootedC
