import RootedC.Proofs.Typing.Approximation

/-!
Where the types of parameters come from. A unary operator that stands directly before a name tells
its type; after a pass over an expression with such an operator in it the name has a type, wherever
in the expression the operator stands. An expression whose type is still open after a pass is made
of names by arithmetic, branches, lets and blocks.
-/
namespace RootedC

namespace Expr

mutual

/-- The unary operators that stand directly before a name, at the places where the name means what
it means around the expression. -/
def operatorsOn (x : String) : Expr → List UnaryOp
  | .number _ _ => []
  | .text _ _ => []
  | .boolean _ _ => []
  | .unit _ => []
  | .name _ _ => []
  | .unary operator operand _ =>
    match operand with
    | .name y _ => if y = x then (UnaryOp.ofKind? operator.kind).toList else []
    | other => operatorsOn x other
  | .binary left _ right _ => operatorsOn x left ++ operatorsOn x right
  | .call callee arguments _ => operatorsOn x callee ++ operatorsOnAll x arguments
  | .branch condition thenArm elseArm? _ =>
    operatorsOn x condition ++ operatorsOn x thenArm ++
      match elseArm? with
      | some elseArm => operatorsOn x elseArm
      | none => []
  | .letIn declarations body _ =>
    operatorsOnDeclared x declarations ++
      if x ∈ declarations.map (·.name) then [] else operatorsOn x body
  | .procedure ⟨parameters, _, body, _⟩ =>
    if x ∈ parameters.map (·.name) then [] else operatorsOn x body
  | .block body _ => operatorsOnAll x body

def operatorsOnAll (x : String) : List Expr → List UnaryOp
  | [] => []
  | e :: more => operatorsOn x e ++ operatorsOnAll x more

/-- A declaration hides the name from those after it. -/
def operatorsOnDeclared (x : String) : List (Declaration Expr) → List UnaryOp
  | [] => []
  | ⟨z, _, value, _⟩ :: more =>
    operatorsOn x value ++ if z = x then [] else operatorsOnDeclared x more

end

mutual

/-- The unary operators of an expression, with their operands and where they stand. Those of inner
procedures are not counted. -/
def unaries : Expr → List (UnaryOp × Expr × Position)
  | .number _ _ => []
  | .text _ _ => []
  | .boolean _ _ => []
  | .unit _ => []
  | .name _ _ => []
  | .unary operator operand span =>
    (UnaryOp.ofKind? operator.kind).toList.map (·, operand, span.start) ++ unaries operand
  | .binary left _ right _ => unaries left ++ unaries right
  | .call _ arguments _ => unariesAll arguments
  | .branch condition thenArm elseArm? _ =>
    unaries condition ++ unaries thenArm ++
      match elseArm? with
      | some elseArm => unaries elseArm
      | none => []
  | .letIn declarations body _ => unariesDeclared declarations ++ unaries body
  | .procedure _ => []
  | .block body _ => unariesAll body

def unariesAll : List Expr → List (UnaryOp × Expr × Position)
  | [] => []
  | e :: more => unaries e ++ unariesAll more

def unariesDeclared : List (Declaration Expr) → List (UnaryOp × Expr × Position)
  | [] => []
  | ⟨_, _, value, _⟩ :: more => unaries value ++ unariesDeclared more

end

mutual

/-- Whether the type of an expression is that of names in it and of nothing else. -/
def isOpen : Expr → Bool
  | .name _ _ => true
  | .binary left operator right _ =>
    ((BinaryOp.ofKind? operator.kind).any fun op => !op.yieldsBool) && isOpen left && isOpen right
  | .branch _ thenArm elseArm? _ =>
    match elseArm? with
    | some elseArm => isOpen thenArm && isOpen elseArm
    | none => false
  | .letIn _ body _ => isOpen body
  | .block body _ => isOpenLast body
  | _ => false

def isOpenLast : List Expr → Bool
  | [] => false
  | [e] => isOpen e
  | _ :: e :: more => isOpenLast (e :: more)

end

def isName : Expr → Bool
  | .name _ _ => true
  | _ => false

/-- A compound expression whose type is that of names in it: no unary operator before it tells the
type of one. -/
def isOpenCompound (e : Expr) : Bool := e.isOpen && !e.isName

end Expr

namespace Lexical

/-- A name is bound in the activation, with a type that is known. -/
def Settles (x : String) (fs : List Frame) : Prop :=
  ∃ r, Frame.find x 0 fs = some r ∧ r.ty.settled = true

/-- A name is bound in the activation or in one around it. -/
def Bound (w : Outside) (x : String) (fs : List Frame) : Prop :=
  (Frame.find x 0 fs).isSome = true ∨ w.binds x = true

section Frames
variable {x : String} {fs gs : List Frame} {w : Outside}

theorem isSome_find_level (x : String) (level : Nat) (fs : List Frame) :
    (Frame.find x level fs).isSome = (Frame.find x 0 fs).isSome := by
  have h := congrArg Option.isSome (Frame.map_ty_find x level fs)
  simpa using h

theorem isSome_find_define (scope : Nat) (y : String) (ty : Ty) {level : Nat}
    (h : (Frame.find x level fs).isSome = true) :
    (Frame.find x level (fs.map (Frame.define scope y ty))).isSome = true := by
  by_cases hxy : x = y
  · subst hxy
    induction fs generalizing level with
    | nil => cases h
    | cons f more ih =>
      rw [List.map_cons, Frame.find]
      cases hg : (Frame.define scope x ty f).bindings.get? x with
      | some t => rfl
      | none =>
        refine ih ?_
        cases hf : f.bindings.get? x with
        | none => simpa [Frame.find, hf] using h
        | some t =>
          unfold Frame.define at hg
          split at hg
          · simp at hg
          · simp [hf] at hg
  · rwa [Frame.find_define_of_ne _ _ _ _ hxy]

theorem Filled.isSome_find (h : Filled fs gs) (hx : (Frame.find x 0 fs).isSome = true) :
    (Frame.find x 0 gs).isSome = true := by
  induction h with
  | refl => exact hx
  | step _ _ _ ih => exact ih (isSome_find_define _ _ _ hx)

theorem Bound.filled (h : Bound w x fs) (hf : Filled fs gs) : Bound w x gs :=
  h.imp_left hf.isSome_find

theorem Settles.filled (h : Settles x fs) (hf : Filled fs gs) : Settles x gs := by
  obtain ⟨r, hr, hs⟩ := h
  exact ⟨r, hf.find_of_settled hr hs, hs⟩

theorem Bound.enter (h : Bound w x fs) : (w.enter fs).binds x = true := by
  simpa [Outside.enter, Bound] using h

/-- A frame that does not bind a name does not get to do so when holes are filled. -/
theorem Filled.get?_head {f g : Frame} (h : Filled (f :: fs) (g :: gs))
    (hf : f.scope ∉ fs.map Frame.scope) (hx : f.bindings.get? x = none) :
    g.bindings.get? x = none := by
  generalize hfs : f :: fs = ffs at h
  generalize hgs : g :: gs = ggs at h
  induction h generalizing f fs with
  | refl =>
    subst hgs
    cases hfs
    exact hx
  | @step _ _ y i level scope t hy _ _ ih =>
    subst hfs
    have hcons : Frame.define scope y t f :: fs.map (Frame.define scope y t) =
        (f :: fs).map (Frame.define scope y t) := rfl
    refine ih ?_ ?_ hcons hgs
    · rwa [Frame.scope_define, Frame.map_scope_define]
    · unfold Frame.define
      split
      · next hscope =>
        by_cases hxy : x = y
        · subst hxy
          simp only [Frame.find, hx] at hy
          obtain ⟨inner, f', outer, rfl, hs⟩ := find_split hy
          simp only at hs
          exact absurd (List.mem_map.mpr ⟨f', by simp, by rw [← hs, hscope]⟩) hf
        · rw [Bindings.get?_bind_of_ne _ _ hxy]
          exact hx
      · exact hx

/-- In a let the name has the meaning that it has around, as long as no declaration hides it. -/
theorem settles_cons {f : Frame} (hf : f.bindings.get? x = none) :
    Settles x (f :: fs) ↔ Settles x fs := by
  have hty := Frame.map_ty_find x 1 fs
  have hcons : Frame.find x 0 (f :: fs) = Frame.find x 1 fs := by rw [Frame.find, hf]
  unfold Settles
  rw [hcons]
  constructor
  · rintro ⟨r, hr, hs⟩
    rw [hr, Option.map_some, eq_comm, Option.map_eq_some_iff] at hty
    obtain ⟨r', hr', heq⟩ := hty
    exact ⟨r', hr', heq ▸ hs⟩
  · rintro ⟨r, hr, hs⟩
    rw [hr, Option.map_some, Option.map_eq_some_iff] at hty
    obtain ⟨r', hr', heq⟩ := hty
    exact ⟨r', hr', heq ▸ hs⟩

theorem bound_cons {f : Frame} (h : Bound w x fs) : Bound w x (f :: fs) := by
  refine h.imp_left fun hx => ?_
  rw [Frame.find]
  cases f.bindings.get? x with
  | some t => rfl
  | none => rwa [isSome_find_level]

/-- A name that is given a type where it is found has that type from then on. -/
theorem find_define_self {level i scope : Nat} {t u : Ty}
    (h : Frame.find x level fs = some ⟨t, i, scope⟩) :
    ∃ r, Frame.find x level (fs.map (Frame.define scope x u)) = some r ∧ r.ty = u := by
  induction fs generalizing level with
  | nil => cases h
  | cons f more ih =>
    rw [List.map_cons, Frame.find]
    by_cases hs : f.scope = scope
    · refine ⟨⟨u, level, f.scope⟩, ?_, rfl⟩
      simp [Frame.define, hs]
    · have hf : Frame.define scope x u f = f := if_neg hs
      rw [hf]
      cases hg : f.bindings.get? x with
      | some v =>
        simp only [Frame.find, hg, Option.some.injEq, BindingSite.mk.injEq] at h
        exact absurd h.2.2 hs
      | none =>
        simp only [Frame.find, hg] at h
        exact ih h

end Frames

section Passes
variable {holes : Prop} {w : Outside} {x : String}

/-- What a pass over an expression in a let does to the frames of the let. -/
theorem Grows.frames_cons {a a' : Activation} (h : Grows a a') (hr : Ready holes w a) {f : Frame}
    {fs : List Frame} (hf : a.frames = f :: fs) (hx : f.bindings.get? x = none) :
    ∃ f' fs', a'.frames = f' :: fs' ∧ f'.scope = f.scope ∧ f'.bindings.get? x = none ∧
      Filled fs fs' ∧ f.scope ∉ fs'.map Frame.scope := by
  have hfill := h.frames
  rw [hf] at hfill
  obtain ⟨f', fs', hf', hs, hfs⟩ := hfill.of_cons (hr.head_not_mem hf)
  rw [hf'] at hfill
  refine ⟨f', fs', hf', hs, hfill.get?_head (hr.head_not_mem hf) hx, hfs, ?_⟩
  rw [hfs.map_scope]
  exact hr.head_not_mem hf

/-- Declaring a name changes the innermost frame only. -/
theorem frames_declared {f : Frame} {fs : List Frame} (hf : f.scope ∉ fs.map Frame.scope)
    (z : String) (ty : Ty) :
    (f :: fs).map (Frame.define f.scope z ty) = ⟨f.scope, f.bindings.bind z ty⟩ :: fs := by
  rw [List.map_cons, Frame.map_define_of_not_mem hf, Frame.define, if_pos rfl]

/-- A name that no declaration of a let hides means in its body what it means around. -/
theorem checkDeclarations_frames {ds : List (Declaration Expr)} {a a' : Activation}
    {tds : List (String × Typed.Expr)} {f : Frame} {fs : List Frame}
    (h : checkDeclarations w f.scope ds a = some (tds, a')) (hr : Ready holes w a)
    (hf : a.frames = f :: fs) (hx : f.bindings.get? x = none) (hds : x ∉ ds.map (·.name)) :
    ∃ f' fs', a'.frames = f' :: fs' ∧ f'.bindings.get? x = none ∧ Filled fs fs' := by
  induction ds generalizing a f fs tds with
  | nil =>
    obtain ⟨-, rfl⟩ := checkDeclarations_nil_eq_some.mp h
    exact ⟨f, fs, hf, hx, .refl fs⟩
  | cons d more ih =>
    rw [List.map_cons, List.mem_cons, not_or] at hds
    obtain ⟨v, a₁, rest, hv, -, hm, -⟩ := checkDeclarations_cons_eq_some.mp h
    obtain ⟨hg, ht⟩ := check_grows hv hr
    have hd := hg.declares hr hf d.name ht
    obtain ⟨f₁, fs₁, hf₁, hs, hx₁, hfill, hnot⟩ := hg.frames_cons hr hf hx
    rw [← hs] at hm hd hnot
    have hf₂ := frames_declared hnot d.name v.ty
    rw [← hf₁] at hf₂
    obtain ⟨f', fs', hf', hx', hfill'⟩ := ih (f := ⟨f₁.scope, f₁.bindings.bind d.name v.ty⟩) hm
      (hd.ready hr) hf₂ ((Bindings.get?_bind_of_ne _ _ hds.1).trans hx₁) hds.2
    exact ⟨f', fs', hf', hx', hfill.trans hfill'⟩

end Passes

theorem operatorsOn_unary {x : String} {operator : Token} {operand : Expr} {span : Span}
    (h : (Expr.unary operator operand span).operatorsOn x ≠ []) :
    (∃ s, operand = .name x s) ∨ operand.operatorsOn x ≠ [] := by
  cases operand with
  | name y s =>
    by_cases hy : y = x
    · exact .inl ⟨s, by rw [hy]⟩
    · simp [Expr.operatorsOn, hy] at h
  | _ => exact .inr h

theorem operatorsOn_branch {x : String} {condition thenArm : Expr} {elseArm? : Option Expr}
    {span : Span} (h : (Expr.branch condition thenArm elseArm? span).operatorsOn x ≠ []) :
    condition.operatorsOn x ≠ [] ∨ thenArm.operatorsOn x ≠ [] ∨
      elseArm?.all (fun elseArm => elseArm.operatorsOn x = []) = false := by
  by_contra hno
  simp only [not_or, not_not] at hno
  cases elseArm? with
  | none => exact h (by simp [Expr.operatorsOn, hno])
  | some elseArm => exact h (by simp_all [Expr.operatorsOn])

/-- The operator itself. -/
theorem settles_of_operand {w : Outside} {x : String} {a a₁ a' : Activation}
    {op : UnaryOp} {v y : Typed.Expr} {s : Span} (hx : check w (.name x s) a = some (v, a₁))
    (hb : Bound w x a.frames) (hfill : Pass.fillHole op.ty v a₁ = some (y, a'))
    (hty : y.ty = op.ty) :
    Settles x a'.frames := by
  rw [check] at hx
  obtain ⟨rfl, ⟨r, hr, -, rfl⟩ | ⟨hnone, hbinds, -⟩⟩ := checkName_eq_some.mp hx
  · rcases fillHole_eq_some.mp hfill with ⟨_, _, _, _, _, heq, -, rfl⟩ | ⟨-, rfl, rfl⟩
    · obtain ⟨ty, level, scope⟩ := r
      cases heq
      obtain ⟨r', hr', ht⟩ := find_define_self (u := op.ty) hr
      exact ⟨r', hr', ht ▸ UnaryOp.settled_ty op⟩
    · refine ⟨r, hr, ?_⟩
      have hrt : r.ty = op.ty := hty
      rw [hrt]
      exact UnaryOp.settled_ty op
  · rcases hb with hb | hb
    · rw [hnone] at hb
      cases hb
    · rw [hbinds] at hb
      cases hb

mutual

theorem check_settles {holes : Prop} {x : String} : ∀ {e : Expr} {w : Outside} {a a' : Activation}
    {te : Typed.Expr}, check w e a = some (te, a') → Ready holes w a → Bound w x a.frames →
      e.operatorsOn x ≠ [] → Settles x a'.frames
  | .number _ _, w, a, a', te, h, hr, hb, hx => absurd (by rw [Expr.operatorsOn]) hx
  | .text _ _, w, a, a', te, h, hr, hb, hx => absurd (by rw [Expr.operatorsOn]) hx
  | .boolean _ _, w, a, a', te, h, hr, hb, hx => absurd (by rw [Expr.operatorsOn]) hx
  | .unit _, w, a, a', te, h, hr, hb, hx => absurd (by rw [Expr.operatorsOn]) hx
  | .name _ _, w, a, a', te, h, hr, hb, hx => absurd (by rw [Expr.operatorsOn]) hx
  | .unary _ operand _, w, a, a', te, h, hr, hb, hx => by
    obtain ⟨op, v, a₁, y, -, hv, hfill, hty, -⟩ := check_unary_eq_some.mp h
    rcases operatorsOn_unary hx with ⟨s, rfl⟩ | hx
    · exact settles_of_operand hv hb hfill hty
    · have hs := check_settles hv hr hb hx
      rcases fillHole_eq_some.mp hfill with ⟨_, _, _, _, _, rfl, -, rfl⟩ | ⟨-, -, rfl⟩
      · obtain ⟨-, rfl, hfind⟩ := check_eq_name hv
        exact hs.filled (.step hfind (UnaryOp.settled_ty op) (.refl _))
      · exact hs
  | .binary left _ right _, w, a, a', te, h, hr, hb, hx => by
    obtain ⟨op, l, r, a₁, -, hl, hright, -⟩ := check_binary_eq_some.mp h
    have hg := (check_grows hl hr).1
    rw [Expr.operatorsOn, ne_eq, List.append_eq_nil_iff, not_and_or] at hx
    rcases hx with hx | hx
    · exact (check_settles hl hr hb hx).filled (check_grows hright (hg.ready hr)).1.frames
    · exact check_settles hright (hg.ready hr) (hb.filled hg.frames) hx
  | .call callee arguments _, w, a, a', te, h, hr, hb, hx => by
    obtain ⟨c, ps, r, a₁, es, a₂, root?, hc, hlen, hes, hroot, -⟩ := check_call_eq_some.mp h
    obtain ⟨hg, -⟩ := callee_known hr (fun _ _ _ _ hp => checkProcedure_grows hp hr.globals) hc
    rw [Expr.operatorsOn, ne_eq, List.append_eq_nil_iff, not_and_or] at hx
    rcases hx with hx | hx
    · cases callee with
      | procedure literal =>
        rcases checkCallee_eq_some.mp hc with ⟨_, P, hl, -, -, hP, -⟩ | ⟨_, _, hl, -⟩
        · cases hl
          exact (checkProcedure_unbound hP hr.globals hb.enter hx).elim
        · cases hl
      | name z s => exact absurd (by rw [Expr.operatorsOn]) hx
      | _ =>
        rcases checkCallee_eq_some.mp hc with ⟨_, _, hl, -⟩ | ⟨_, _, hl, -⟩
        · cases hl
        · cases hl
    · have hs := checkArguments_settles hes hlen (hg.ready hr) (hb.filled hg.frames) hx
      exact hs.filled (Grows.of_rootFor hroot).frames
  | .branch condition thenArm elseArm? _, w, a, a', te, h, hr, hb, hx => by
    obtain ⟨c, t, f, a₁, a₂, hc, -, ht, hf, -⟩ := check_branch_eq_some.mp h
    have hg₁ := (check_grows hc hr).1
    have hr₁ := hg₁.ready hr
    have hg₂ := (check_grows ht hr₁).1
    have hr₂ := hg₂.ready hr₁
    have hg₃ : Grows a₂ a' := by
      cases elseArm? with
      | some elseArm => exact (check_grows hf hr₂).1
      | none =>
        obtain ⟨-, rfl⟩ := check_unit_eq_some.mp hf
        exact .refl _
    rcases operatorsOn_branch hx with hx | hx | hx
    · exact (check_settles hc hr hb hx).filled (hg₂.trans hg₃).frames
    · exact (check_settles ht hr₁ (hb.filled hg₁.frames) hx).filled hg₃.frames
    · cases elseArm? with
      | some elseArm =>
        exact check_settles hf hr₂ (hb.filled (hg₁.trans hg₂).frames) (by simpa using hx)
      | none => cases hx
  | .letIn declarations body _, w, a, a', te, h, hr, hb, hx => by
    obtain ⟨ds, a₁, v, a₂, a₃, root?, hds, hv, hroot, rfl, -⟩ := check_let_eq_some.mp h
    have hd := checkDeclarations_grows hds hr.openLet rfl rfl
    have hr₁ := hd.ready hr.openLet
    have hg := (check_grows hv hr₁).1.trans (.of_rootFor hroot)
    rw [Expr.operatorsOn, ne_eq, List.append_eq_nil_iff, not_and_or] at hx
    rcases hx with hx | hx
    · have hs := checkDeclarations_settles hds hr.openLet rfl rfl hb hx
      obtain ⟨f₁, fs₁, hf₁, -⟩ := hd.frames_eq rfl
      have hfill := hg.frames
      rw [hf₁] at hfill hs
      obtain ⟨f₃, fs₃, hf₃, -, hfs⟩ := hfill.of_cons (hr₁.head_not_mem hf₁)
      simp only [hf₃]
      exact hs.filled hfs
    · split at hx
      · exact absurd rfl hx
      · next hnot =>
        obtain ⟨f₁, fs₁, hf₁, hx₁, hfill⟩ := checkDeclarations_frames (f := ⟨a.next, []⟩) hds
          hr.openLet rfl rfl hnot
        have hs := check_settles hv hr₁ (by rw [hf₁]; exact bound_cons (hb.filled hfill)) hx
        have hs := hs.filled (Grows.of_rootFor hroot).frames
        obtain ⟨f₃, fs₃, hf₃, -, hx₃, -, -⟩ := hg.frames_cons hr₁ hf₁ hx₁
        rw [hf₃, settles_cons hx₃] at hs
        simp only [hf₃, List.tail_cons]
        exact hs
  | .procedure literal, w, a, a', te, h, hr, hb, hx => absurd h check_procedure_ne_some
  | .block body _, w, a, a', te, h, hr, hb, hx => by
    obtain ⟨es, hes, -⟩ := check_block_eq_some.mp h
    rw [Expr.operatorsOn] at hx
    exact checkAll_settles hes hr hb hx

theorem checkAll_settles {holes : Prop} {x : String} : ∀ {es : List Expr} {w : Outside}
    {a a' : Activation} {tes : List Typed.Expr}, checkAll w es a = some (tes, a') →
      Ready holes w a → Bound w x a.frames → Expr.operatorsOnAll x es ≠ [] → Settles x a'.frames
  | [], w, a, a', tes, h, hr, hb, hx => absurd (by rw [Expr.operatorsOnAll]) hx
  | e :: more, w, a, a', tes, h, hr, hb, hx => by
    obtain ⟨te, a₁, rest, he, hm, -⟩ := checkAll_cons_eq_some.mp h
    have hg := (check_grows he hr).1
    rw [Expr.operatorsOnAll, ne_eq, List.append_eq_nil_iff, not_and_or] at hx
    rcases hx with hx | hx
    · exact (check_settles he hr hb hx).filled (checkAll_grows hm (hg.ready hr)).1.frames
    · exact checkAll_settles hm (hg.ready hr) (hb.filled hg.frames) hx

theorem checkArguments_settles {holes : Prop} {x : String} : ∀ {es : List Expr} {tys : List Ty}
    {w : Outside} {a a' : Activation} {tes : List Typed.Expr},
    checkArguments w es tys a = some (tes, a') → es.length = tys.length → Ready holes w a →
      Bound w x a.frames → Expr.operatorsOnAll x es ≠ [] → Settles x a'.frames
  | [], tys, w, a, a', tes, h, hlen, hr, hb, hx => absurd (by rw [Expr.operatorsOnAll]) hx
  | e :: more, [], w, a, a', tes, h, hlen, hr, hb, hx => by cases hlen
  | e :: more, ty :: tys, w, a, a', tes, h, hlen, hr, hb, hx => by
    obtain ⟨te, a₁, rest, he, -, hm, -⟩ := checkArguments_cons_eq_some.mp h
    have hg := (check_grows he hr).1
    rw [Expr.operatorsOnAll, ne_eq, List.append_eq_nil_iff, not_and_or] at hx
    rcases hx with hx | hx
    · exact (check_settles he hr hb hx).filled (checkArguments_grows hm (hg.ready hr)).frames
    · exact checkArguments_settles hm (Nat.succ.inj hlen) (hg.ready hr) (hb.filled hg.frames) hx

theorem checkDeclarations_settles {holes : Prop} {x : String} : ∀ {ds : List (Declaration Expr)}
    {w : Outside} {a a' : Activation} {tds : List (String × Typed.Expr)} {f : Frame}
    {fs : List Frame}, checkDeclarations w f.scope ds a = some (tds, a') → Ready holes w a →
      a.frames = f :: fs → f.bindings.get? x = none → Bound w x fs →
      Expr.operatorsOnDeclared x ds ≠ [] → Settles x a'.frames.tail
  | [], w, a, a', tds, f, fs, h, hr, hf, hnone, hb, hx =>
    absurd (by rw [Expr.operatorsOnDeclared]) hx
  | ⟨z, type?, value, s⟩ :: more, w, a, a', tds, f, fs, h, hr, hf, hnone, hb, hx => by
    obtain ⟨v, a₁, rest, hv, -, hm, -⟩ := checkDeclarations_cons_eq_some.mp h
    obtain ⟨hg, ht⟩ := check_grows hv hr
    have hd := hg.declares hr hf z ht
    obtain ⟨f₁, fs₁, hf₁, hs, hx₁, hfill, hnot⟩ := hg.frames_cons hr hf hnone
    rw [← hs] at hm hd hnot
    have hf₂ := frames_declared hnot z v.ty
    rw [← hf₁] at hf₂
    rw [Expr.operatorsOnDeclared, ne_eq, List.append_eq_nil_iff, not_and_or] at hx
    rcases hx with hx | hx
    · have hset := check_settles hv hr (by rw [hf]; exact bound_cons hb) hx
      rw [hf₁, settles_cons hx₁] at hset
      have hout := (checkDeclarations_grows hm (hd.ready hr) hf₂ rfl).outer
      simp only [hf₂] at hout
      exact hset.filled hout
    · split at hx
      · exact absurd rfl hx
      · next hz =>
        exact checkDeclarations_settles (f := ⟨f₁.scope, f₁.bindings.bind z v.ty⟩) hm (hd.ready hr)
          hf₂ ((Bindings.get?_bind_of_ne _ _ (Ne.symm hz)).trans hx₁) (hb.filled hfill) hx

/-- A procedure that is accepted does not use names bound around it. -/
theorem checkProcedure_unbound {x : String} : ∀ {literal : Procedure Expr} {w : Outside}
    {n n' : Nat}
    {P : Typed.Procedure Typed.Expr}, checkProcedure w n literal = some (P, n') →
      (∀ x t, w.globals.get? x = some t → t.settled = true) → w.binds x = true →
      (Expr.procedure literal).operatorsOn x ≠ [] → False
  | ⟨parameters, result?, body, span⟩, w, n, n', P, h, hg, hb, hx => by
    obtain ⟨-, hnames, -, -, hready, -, -, -, he⟩ := checkProcedure_last h hg
    rw [Expr.operatorsOn] at hx
    split at hx
    · exact hx rfl
    · next hnot =>
      obtain ⟨r, hr, -⟩ := check_settles he hready (.inr hb) hx
      obtain ⟨t, ht⟩ : ∃ t, (x, t) ∈ P.parameters := by
        cases hget : (Frame.ofParameters P.scope P.parameters).bindings.get? x with
        | none => simp [Frame.find, hget] at hr
        | some t => exact ⟨t, (Frame.get?_foldl_bind hget).resolve_right (by simp [Bindings.get?])⟩
      exact hnot (hnames ▸ List.mem_map_of_mem ht)

end

theorem settle_eq_hole {t u : Ty} : t.settle u = .hole ↔ t = .hole ∧ u = .hole := by
  unfold Ty.settle
  cases t <;> simp [Ty.isHole]

mutual

/-- An expression whose type a pass has not found is made of names. -/
theorem isOpen_of_hole {w : Outside} : ∀ {e : Expr} {a a' : Activation} {te : Typed.Expr},
    check w e a = some (te, a') → Ready True w a → te.ty = .hole → e.isOpen = true
  | .number _ _, a, a', te, h, hr, hty => by
    obtain ⟨rfl, -⟩ := check_number_eq_some.mp h
    cases hty
  | .text _ _, a, a', te, h, hr, hty => by
    obtain ⟨rfl, -⟩ := check_text_eq_some.mp h
    cases hty
  | .boolean _ _, a, a', te, h, hr, hty => by
    obtain ⟨rfl, -⟩ := check_boolean_eq_some.mp h
    cases hty
  | .unit _, a, a', te, h, hr, hty => by
    obtain ⟨rfl, -⟩ := check_unit_eq_some.mp h
    cases hty
  | .name _ _, a, a', te, h, hr, hty => by rw [Expr.isOpen]
  | .unary _ operand _, a, a', te, h, hr, hty => by
    obtain ⟨op, v, a₁, y, -, -, -, -, rfl⟩ := check_unary_eq_some.mp h
    cases op <;> cases hty
  | .binary left operator right _, a, a', te, h, hr, hty => by
    obtain ⟨op, l, r, a₁, hop, hl, hright, -, -, rfl⟩ := check_binary_eq_some.mp h
    have hres : op.resultTy (l.ty.settle r.ty) = .hole := hty
    unfold BinaryOp.resultTy at hres
    split at hres
    · cases hres
    · next hyields =>
      obtain ⟨hlt, hrt⟩ := settle_eq_hole.mp hres
      have hr₁ := (check_grows hl hr).1.ready hr
      rw [Expr.isOpen, hop, isOpen_of_hole hl hr hlt, isOpen_of_hole hright hr₁ hrt]
      simpa using hyields
  | .call callee arguments _, a, a', te, h, hr, hty => by
    obtain ⟨c, ps, r, a₁, es, a₂, root?, hc, -, -, -, rfl⟩ := check_call_eq_some.mp h
    obtain ⟨-, hs⟩ := callee_known hr (fun _ _ _ _ hp => checkProcedure_grows hp hr.globals) hc
    have hrs := (Ty.settled_proc.mp hs).2
    rw [show r = .hole from hty] at hrs
    cases hrs
  | .branch condition thenArm elseArm? _, a, a', te, h, hr, hty => by
    obtain ⟨c, t, f, a₁, a₂, hc, -, ht, hf, -, rfl⟩ := check_branch_eq_some.mp h
    obtain ⟨htt, hft⟩ := settle_eq_hole.mp hty
    have hr₁ := (check_grows hc hr).1.ready hr
    have hr₂ := (check_grows ht hr₁).1.ready hr₁
    cases elseArm? with
    | some elseArm =>
      have helse : elseArm.isOpen = true := isOpen_of_hole hf hr₂ hft
      rw [Expr.isOpen, isOpen_of_hole ht hr₁ htt, helse, Bool.and_self]
    | none =>
      obtain ⟨rfl, -⟩ := check_unit_eq_some.mp hf
      cases hft
  | .letIn declarations body _, a, a', te, h, hr, hty => by
    obtain ⟨ds, a₁, v, a₂, a₃, root?, hds, hv, -, -, rfl⟩ := check_let_eq_some.mp h
    have hr₁ := (checkDeclarations_grows hds hr.openLet rfl rfl).ready hr.openLet
    rw [Expr.isOpen]
    exact isOpen_of_hole hv hr₁ hty
  | .procedure literal, a, a', te, h, hr, hty => absurd h check_procedure_ne_some
  | .block body _, a, a', te, h, hr, hty => by
    obtain ⟨es, hes, rfl⟩ := check_block_eq_some.mp h
    rw [Expr.isOpen]
    exact isOpenLast_of_hole hes hr hty

theorem isOpenLast_of_hole {w : Outside} : ∀ {es : List Expr} {a a' : Activation}
    {tes : List Typed.Expr}, checkAll w es a = some (tes, a') → Ready True w a →
      (tes.getLast?.map (·.ty)).getD .unit = .hole → Expr.isOpenLast es = true
  | [], a, a', tes, h, hr, hty => by
    obtain ⟨rfl, -⟩ := checkAll_nil_eq_some.mp h
    cases hty
  | [e], a, a', tes, h, hr, hty => by
    obtain ⟨te, a₁, rest, he, hm, rfl⟩ := checkAll_cons_eq_some.mp h
    obtain ⟨rfl, -⟩ := checkAll_nil_eq_some.mp hm
    rw [Expr.isOpenLast]
    exact isOpen_of_hole he hr hty
  | e :: e' :: more, a, a', tes, h, hr, hty => by
    obtain ⟨te, a₁, rest, he, hm, rfl⟩ := checkAll_cons_eq_some.mp h
    have hr₁ := (check_grows he hr).1.ready hr
    rw [Expr.isOpenLast]
    refine isOpenLast_of_hole hm hr₁ ?_
    obtain ⟨te', a₂, rest', -, -, rfl⟩ := checkAll_cons_eq_some.mp hm
    simpa using hty

end

end Lexical

end RootedC
