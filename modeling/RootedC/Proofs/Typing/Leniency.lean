import RootedC.Proofs.Typing.Annotation
import RootedC.Proofs.Typing.Occurrence

/-!
What a first pass over the body of a procedure lets through. A type that is not known yet agrees
with every other one, so the pass goes through wherever it would with all types written, but for one
thing: a unary operator before a compound operand whose type is still open is refused. Where that
does not happen it makes no difference at which place of the body the operators stand that tell the
types of parameters.
-/
namespace RootedC

namespace Ty.Approx

theorem agrees {t u v : Ty} (ht : t.Approx v) (hu : u.Approx v) : t.agrees u = true := by
  rcases ht with rfl | rfl
  · rfl
  · rcases hu with rfl | rfl
    · simp [Ty.agrees, Ty.isHole]
    · exact Ty.agrees_self u

theorem isProcedure_eq_false {t u : Ty} (h : t.Approx u) (hu : u.isProcedure = false) :
    t.isProcedure = false := by
  rcases h with rfl | rfl
  · rfl
  · exact hu

end Ty.Approx

namespace Lexical

/-- A check gives a value, or it stops at one of some unary operators because the type of its
operand, which is no name, is not known yet. -/
def Lenient {α : Type} (us : List (UnaryOp × Expr × Position))
    (r : EStateM.Result Diagnostic Context α) : Prop :=
  (∃ v c, r = .ok v c) ∨ ∃ u ∈ us, u.2.1.isOpenCompound = true ∧
    ∃ c, r = .error ⟨.badOperand u.1.symbol "_", u.2.2⟩ c

namespace Lenient
variable {α β τ : Type} {us us' : List (UnaryOp × Expr × Position)} {x : Check α}
  {f : α → Check β} {c : Context} {S : α → Context → τ → Prop} {o : Option (α × τ)}

theorem of_ok {v : α} {r : EStateM.Result Diagnostic Context α} (h : r = .ok v c) : Lenient us r :=
  .inl ⟨v, c, h⟩

/-- Where the pass over frames goes through the check does so too. -/
theorem of_some {r : EStateM.Result Diagnostic Context α} (hm : Matches S r o) {p : α × τ}
    (ho : o = some p) : Lenient us r := by
  cases hm with
  | ok => exact of_ok rfl
  | failed => cases ho

theorem bind (hm : Matches S (x c) o) (hx : Lenient us (x c)) (hus : us ⊆ us')
    (hf : ∀ v c' a, o = some (v, a) → S v c' a → Lenient us' (f v c')) :
    Lenient us' ((x >>= f) c) := by
  rw [bind_run]
  generalize x c = r at hm hx ⊢
  cases hm with
  | ok h => exact hf _ _ _ rfl h
  | failed =>
    rcases hx with ⟨v, c', hx⟩ | ⟨u, hu, ho, c', hx⟩
    · cases hx
    · cases hx
      exact .inr ⟨u, hus hu, ho, _, rfl⟩

theorem step (hm : Matches S (x c) o) {v : α} {a : τ} (ho : o = some (v, a))
    (hf : ∀ c', S v c' a → Lenient us (f v c')) : Lenient us ((x >>= f) c) := by
  have hx : Lenient [] (x c) := of_some hm ho
  refine bind hm hx (List.nil_subset _) fun v' c' a' ho' hs => ?_
  rw [ho] at ho'
  cases ho'
  exact hf c' hs

theorem expectTy {expected received : Ty} {position : Position} {g : Unit → Check β}
    (h : expected.agrees received = true) (hg : Lenient us (g () c)) :
    Lenient us ((Check.expectTy expected received position >>= g) c) := by
  rw [Check.expectTy, if_pos h]
  exact hg

end Lenient

section Primitives
variable {w : Outside} {a b b' : Activation}

theorem exists_checkName {z : String} {span : Span} {ue : Typed.Expr}
    (h : Pass.checkName w z span b = some (ue, b')) (hab : a.Approx b) :
    ∃ te, Pass.checkName w z span a = some (te, a) := by
  have hrel := approx_find hab.frames z 0
  obtain ⟨-, ⟨r', hr', hp, -⟩ | ⟨hnone, hb, ty, hg, hp, -⟩⟩ := checkName_eq_some.mp h
  · rw [hr'] at hrel
    generalize hr : Frame.find z 0 a.frames = o at hrel
    cases hrel with
    | some hrr =>
      exact ⟨_, checkName_eq_some.mpr ⟨rfl, .inl ⟨_, hr, hrr.1.isProcedure_eq_false hp, rfl⟩⟩⟩
  · rw [hnone] at hrel
    generalize hr : Frame.find z 0 a.frames = o at hrel
    cases hrel with
    | none => exact ⟨_, checkName_eq_some.mpr ⟨rfl, .inr ⟨hr, hb, ty, hg, hp, rfl⟩⟩⟩

theorem exists_checkCalleeName {z : String} {r : Typed.Callee Typed.Expr × Ty}
    (h : Pass.checkCalleeName w z b = some (r, b')) (hab : a.Approx b) :
    Pass.checkCalleeName w z a = some (r, a) := by
  have hsome := isSome_find_eq hab.frames z
  obtain ⟨-, hnone, hcase⟩ := checkCalleeName_eq_some.mp h
  refine checkCalleeName_eq_some.mpr ⟨rfl, ?_, hcase⟩
  rw [hnone] at hsome
  simpa using hsome

theorem exists_fillHole (ty : Ty) (x : Typed.Expr) (a : Activation) :
    ∃ y a', Pass.fillHole ty x a = some (y, a') := by
  unfold Pass.fillHole
  split
  · exact ⟨_, _, rfl⟩
  · exact ⟨_, _, rfl⟩

/-- Of a name with no type yet a unary operator tells the type. -/
theorem isName_eq_false {e : Expr} {te : Typed.Expr} {a a' : Activation}
    (h : check w e a = some (te, a')) (hr : Ready True w a) (hty : te.ty = .hole)
    (hne : ∀ root? span name level scope,
      te ≠ .name ⟨.hole, root?, span⟩ name level (.lexical scope)) : e.isName = false := by
  cases e with
  | name z s =>
    rw [check] at h
    obtain ⟨-, ⟨r, -, -, rfl⟩ | ⟨-, -, ty, hg, -, rfl⟩⟩ := checkName_eq_some.mp h
    · obtain ⟨ty, level, scope⟩ := r
      cases hty
      exact absurd rfl (hne _ _ _ _ _)
    · have hs := hr.globals _ _ hg
      rw [show ty = .hole from hty] at hs
      cases hs
  | _ => rfl

end Primitives

section Calls
variable {site : Site} {scope : Nat} {rest : List Nat} {c : Context} {a : Activation}

/-- A call after its callee, if there are as many arguments as parameters. -/
theorem lenient_call (hs : Shows site (scope :: rest) c a) {arguments : List Expr} {ps : List Ty}
    (hlen : arguments.length = ps.length)
    (ha : Lenient (Expr.unariesAll arguments) (RootedC.checkArguments scope arguments ps c))
    (callee : Typed.Callee Typed.Expr) (r : Ty) (span : Span) :
    Lenient (Expr.unariesAll arguments)
      ((do
        Check.checkCount arguments ps.length span.stop
        let arguments ← RootedC.checkArguments scope arguments ps
        let root? ← Check.rootFor r scope span.start
        return .call ⟨r, root?, span⟩ callee arguments : Check Typed.Expr) c) := by
  have hcount : Check.checkCount arguments ps.length span.stop c = .ok () c := by
    simp [Check.checkCount, hlen, pure_run]
  rw [bind_run, hcount]
  refine .bind (checkArguments_agrees arguments ps c a hs) ha (List.Subset.refl _) ?_
  intro es c₁ a₁ _ hs₁
  obtain ⟨root?, a₂, hroot⟩ := exists_rootFor r a₁
  exact .step (Agrees.rootFor r span.start c₁ a₁ hs₁) hroot fun c₂ _ => .of_ok rfl

end Calls

theorem subset_unaries_branch {condition thenArm : Expr} {elseArm? : Option Expr} {span : Span} :
    condition.unaries ⊆ (Expr.branch condition thenArm elseArm? span).unaries ∧
      thenArm.unaries ⊆ (Expr.branch condition thenArm elseArm? span).unaries := by
  cases elseArm? with
  | none => simp [Expr.unaries]
  | some elseArm => simp [Expr.unaries]

mutual

/-- A pass from types that are not all known goes as far as the one from known types does. -/
theorem check_lenient {site : Site} : ∀ {e : Expr} {scope : Nat} {rest : List Nat} {c : Context}
    {a b b' : Activation} {ue : Typed.Expr}, Shows site (scope :: rest) c a →
      check site.outside e b = some (ue, b') → a.Approx b → Ready True site.outside a →
      Ready False site.outside b → Lenient e.unaries (e.check scope c)
  | .number _ _, scope, rest, c, a, b, b', ue, hs, h, hab, hr, hr' => by
    rw [Expr.check]
    exact .of_ok rfl
  | .text _ _, scope, rest, c, a, b, b', ue, hs, h, hab, hr, hr' => by
    rw [Expr.check]
    exact .of_ok rfl
  | .boolean _ _, scope, rest, c, a, b, b', ue, hs, h, hab, hr, hr' => by
    rw [Expr.check]
    exact .of_ok rfl
  | .unit _, scope, rest, c, a, b, b', ue, hs, h, hab, hr, hr' => by
    rw [Expr.check]
    exact .of_ok rfl
  | .name z span, scope, rest, c, a, b, b', ue, hs, h, hab, hr, hr' => by
    rw [check] at h
    obtain ⟨te, ht⟩ := exists_checkName h hab
    rw [Expr.check]
    exact .of_some (Agrees.checkName z span c a hs) ht
  | .unary operator operand span, scope, rest, c, a, b, b', ue, hs, h, hab, hr, hr' => by
    obtain ⟨op, v', b₁, y', hop, hv', hfill', hty', rfl⟩ := check_unary_eq_some.mp h
    obtain ⟨-, hvs', -⟩ := check_frames hv' hr'
    obtain ⟨rfl, -⟩ := fillHole_of_settled hfill' hvs'
    rw [Expr.check, Expr.unaries, hop]
    refine .bind (check_agrees operand c a hs) (check_lenient hs hv' hab hr hr')
      (List.subset_append_right _ _) ?_
    rintro v c₁ a₁ hv ⟨hs₁, hlocated⟩
    have hvt : v.ty.Approx op.ty := hty' ▸ (check_approx hv hv' hab hr hr').2
    obtain ⟨y, a₂, hfill⟩ := exists_fillHole op.ty v a₁
    refine .step (Agrees.fillHole op.ty v c₁ a₁ ⟨hs₁, hlocated⟩) hfill fun c₂ _ => ?_
    -- the operand has the type that the operator wants, or it has none yet and is no name
    rcases fillHole_eq_some.mp hfill with ⟨_, _, _, _, _, -, rfl, -⟩ | ⟨hne, rfl, -⟩
    · rw [if_pos (by simp [Typed.Expr.ty, Typed.Expr.info])]
      exact .of_ok rfl
    · rcases hvt with hhole | hty
      · refine .inr ⟨(op, operand, span.start), by simp, ?_, c₂, ?_⟩
        · simp [Expr.isOpenCompound, isOpen_of_hole hv hr hhole, isName_eq_false hv hr hhole hne]
        · rw [if_neg (by cases op <;> simp [hhole, UnaryOp.ty]), hhole]
          rfl
      · rw [if_pos (by simp [hty])]
        exact .of_ok rfl
  | .binary left operator right span, scope, rest, c, a, b, b', ue, hs, h, hab, hr, hr' => by
    obtain ⟨op, l', r', b₁, hop, hl', hright', hagree, hworks, rfl⟩ := check_binary_eq_some.mp h
    obtain ⟨-, hls', hr₁'⟩ := check_frames hl' hr'
    obtain ⟨-, hrs', -⟩ := check_frames hright' hr₁'
    have heq := (Ty.agrees_iff_of_settled hls' hrs').mp hagree
    rw [Expr.check, Expr.unaries, hop]
    refine .bind (check_agrees left c a hs) (check_lenient hs hl' hab hr hr')
      (List.subset_append_left _ _) ?_
    rintro l c₁ a₁ hl ⟨hs₁, -⟩
    have hr₁ := (check_grows hl hr).1.ready hr
    obtain ⟨hab₁, hlt⟩ := check_approx hl hl' hab hr hr'
    refine .bind (check_agrees right c₁ a₁ hs₁) (check_lenient hs₁ hright' hab₁ hr₁ hr₁')
      (List.subset_append_right _ _) ?_
    rintro r c₂ a₂ hright -
    have hrt := (check_approx hright hright' hab₁ hr₁ hr₁').2
    rw [← heq] at hrt
    refine .expectTy (hlt.agrees hrt) ?_
    rw [Ty.settle_of_settled hls', Ty.isHole_eq_false_of_settled hls', Bool.false_or] at hworks
    have hok : ((l.ty.settle r.ty).isHole || op.worksOn (l.ty.settle r.ty)) = true := by
      rcases hlt.settle hrt with hhole | hty
      · rw [hhole]
        rfl
      · rw [hty, hworks, Bool.or_true]
    rw [if_pos hok]
    exact .of_ok rfl
  | .call callee arguments span, scope, rest, c, a, b, b', ue, hs, h, hab, hr, hr' => by
    obtain ⟨k', ps, r, b₁, es', b₂, root', hc', hlen, hes', -, rfl⟩ := check_call_eq_some.mp h
    obtain ⟨hg', -⟩ := callee_known hr' (fun _ _ _ _ hp => checkProcedure_grows hp hr.globals) hc'
    -- what follows the callee, from whatever activation the pass over the callee leaves
    have hrest (k : Typed.Callee Typed.Expr) (c₁ : Context) (a₁ : Activation)
        (hk : checkCallee site.outside callee a = some ((k, .proc ps r), a₁))
        (hs₁ : Shows site (scope :: rest) c₁ a₁) := by
      obtain ⟨hab₁, -⟩ := checkCallee_approx hk hc' hab
      obtain ⟨hg, -⟩ := callee_known hr (fun _ _ _ _ hp => checkProcedure_grows hp hr.globals) hk
      exact lenient_call hs₁ hlen
        (checkArguments_lenient hs₁ hes' hab₁ (hg.ready hr) (hg'.ready hr')) k r span
    rw [Expr.unaries]
    rcases checkCallee_eq_some.mp hc' with ⟨literal, P, rfl, rfl, hty, hP, -⟩ | ⟨z, s, rfl, hz⟩
    · have hk : checkCallee site.outside (.procedure literal) a =
          some ((.literal P, .proc ps r), { a with next := b₁.next }) := by
        refine checkCallee_eq_some.mpr (.inl ⟨literal, P, rfl, rfl, hty, ?_, rfl⟩)
        rw [enter_eq _ hab.frames, hab.next]
        exact hP
      rw [Expr.check, ← bind_assoc]
      refine .step (Agrees.literal (fun site hp => checkProcedure_agrees hp literal) c a hs) hk ?_
      exact fun c₁ hs₁ => hrest _ c₁ _ hk hs₁
    · have hk : checkCallee site.outside (.name z s) a = some ((k', .proc ps r), a) :=
        checkCallee_eq_some.mpr (.inr ⟨z, s, rfl, exists_checkCalleeName hz hab⟩)
      rw [Expr.check]
      refine .step (Agrees.checkCalleeName z s c a hs) hk ?_
      exact fun c₁ hs₁ => hrest _ c₁ _ hk hs₁
  | .branch condition thenArm elseArm? span, scope, rest, c, a, b, b', ue, hs, h, hab, hr, hr' => by
    obtain ⟨k', t', f', b₁, b₂, hk', hbool, ht', hf', hagree, rfl⟩ := check_branch_eq_some.mp h
    obtain ⟨-, hks', hr₁'⟩ := check_frames hk' hr'
    obtain ⟨-, hts', hr₂'⟩ := check_frames ht' hr₁'
    obtain ⟨-, hfs', -⟩ := check_frames hf' hr₂'
    have hbool := (Ty.agrees_iff_of_settled rfl hks').mp hbool
    have heq := (Ty.agrees_iff_of_settled hts' hfs').mp hagree
    rw [Expr.check]
    refine .bind (check_agrees condition c a hs) (check_lenient hs hk' hab hr hr')
      subset_unaries_branch.1 ?_
    rintro k c₁ a₁ hk ⟨hs₁, -⟩
    have hr₁ := (check_grows hk hr).1.ready hr
    obtain ⟨hab₁, hkt⟩ := check_approx hk hk' hab hr hr'
    rw [← hbool] at hkt
    refine .expectTy ((Ty.Approx.refl .bool).agrees hkt) ?_
    refine .bind (check_agrees thenArm c₁ a₁ hs₁) (check_lenient hs₁ ht' hab₁ hr₁ hr₁')
      subset_unaries_branch.2 ?_
    rintro t c₂ a₂ ht ⟨hs₂, -⟩
    have hr₂ := (check_grows ht hr₁).1.ready hr₁
    obtain ⟨hab₂, htt⟩ := check_approx ht ht' hab₁ hr₁ hr₁'
    rw [heq] at htt
    cases elseArm? with
    | some elseArm =>
      rw [Expr.unaries]
      refine .bind (check_agrees elseArm c₂ a₂ hs₂) (check_lenient hs₂ hf' hab₂ hr₂ hr₂')
        (List.subset_append_right _ _) ?_
      rintro f c₃ a₃ hf -
      exact .expectTy (htt.agrees (check_approx hf hf' hab₂ hr₂ hr₂').2) (.of_ok rfl)
    | none =>
      obtain ⟨rfl, -⟩ := check_unit_eq_some.mp hf'
      exact .expectTy (htt.agrees (.refl .unit)) (.of_ok rfl)
  | .letIn declarations body span, scope, rest, c, a, b, b', ue, hs, h, hab, hr, hr' => by
    obtain ⟨ds', b₁, v', b₂, b₃, root', hds', hv', -, -, rfl⟩ := check_let_eq_some.mp h
    rw [Expr.check, Expr.unaries]
    refine .step (Agrees.openLet c a hs) rfl fun c₀ hs₀ => ?_
    have hab₀ := hab.openLet
    obtain ⟨frames, slots, next⟩ := b
    obtain rfl : a.next = next := hab.next
    refine .bind (checkDeclarations_agrees declarations c₀ _ hs₀)
      (checkDeclarations_lenient hs₀ hds' hab₀ hr.openLet hr'.openLet rfl rfl rfl)
      (List.subset_append_left _ _) ?_
    intro ds c₁ a₁ hds hs₁
    obtain ⟨hab₁, hr₁, hr₁'⟩ :=
      checkDeclarations_approx hds hds' hab₀ hr.openLet hr'.openLet rfl rfl
      rfl
    refine .bind (check_agrees body c₁ a₁ hs₁) (check_lenient hs₁ hv' hab₁ hr₁ hr₁')
      (List.subset_append_right _ _) ?_
    rintro v c₂ a₂ - ⟨hs₂, -⟩
    obtain ⟨root?, a₃, hroot⟩ := exists_rootFor v.ty a₂
    exact .step (Agrees.rootFor v.ty span.start c₂ a₂ hs₂) hroot fun c₃ _ => .of_ok rfl
  | .procedure literal, scope, rest, c, a, b, b', ue, hs, h, hab, hr, hr' =>
    absurd h check_procedure_ne_some
  | .block body span, scope, rest, c, a, b, b', ue, hs, h, hab, hr, hr' => by
    obtain ⟨es', hes', rfl⟩ := check_block_eq_some.mp h
    rw [Expr.check, Expr.unaries]
    exact .bind (checkAll_agrees body c a hs) (checkAll_lenient hs hes' hab hr hr')
      (List.Subset.refl _) fun _ _ _ _ _ => .of_ok rfl

theorem checkAll_lenient {site : Site} : ∀ {es : List Expr} {scope : Nat} {rest : List Nat}
    {c : Context} {a b b' : Activation} {ues : List Typed.Expr}, Shows site (scope :: rest) c a →
      checkAll site.outside es b = some (ues, b') → a.Approx b → Ready True site.outside a →
      Ready False site.outside b → Lenient (Expr.unariesAll es) (RootedC.checkAll scope es c)
  | [], scope, rest, c, a, b, b', ues, hs, h, hab, hr, hr' => by
    rw [RootedC.checkAll]
    exact .of_ok rfl
  | e :: more, scope, rest, c, a, b, b', ues, hs, h, hab, hr, hr' => by
    obtain ⟨ue, b₁, rest', he', hm', rfl⟩ := checkAll_cons_eq_some.mp h
    obtain ⟨-, -, hr₁'⟩ := check_frames he' hr'
    rw [RootedC.checkAll, Expr.unariesAll]
    refine .bind (check_agrees e c a hs) (check_lenient hs he' hab hr hr')
      (List.subset_append_left _ _) ?_
    rintro te c₁ a₁ he ⟨hs₁, -⟩
    obtain ⟨hab₁, -⟩ := check_approx he he' hab hr hr'
    have hr₁ := (check_grows he hr).1.ready hr
    exact .bind (checkAll_agrees more c₁ a₁ hs₁) (checkAll_lenient hs₁ hm' hab₁ hr₁ hr₁')
      (List.subset_append_right _ _) fun _ _ _ _ _ => .of_ok rfl

theorem checkArguments_lenient {site : Site} : ∀ {es : List Expr} {tys : List Ty} {scope : Nat}
    {rest : List Nat} {c : Context} {a b b' : Activation} {ues : List Typed.Expr},
    Shows site (scope :: rest) c a → checkArguments site.outside es tys b = some (ues, b') →
      a.Approx b → Ready True site.outside a → Ready False site.outside b →
      Lenient (Expr.unariesAll es) (RootedC.checkArguments scope es tys c)
  | [], tys, scope, rest, c, a, b, b', ues, hs, h, hab, hr, hr' => by
    simp only [RootedC.checkArguments]
    exact .of_ok rfl
  | e :: more, [], scope, rest, c, a, b, b', ues, hs, h, hab, hr, hr' => by
    simp only [RootedC.checkArguments]
    exact .of_ok rfl
  | e :: more, ty :: tys, scope, rest, c, a, b, b', ues, hs, h, hab, hr, hr' => by
    obtain ⟨ue, b₁, rest', he', hagree, hm', rfl⟩ := checkArguments_cons_eq_some.mp h
    obtain ⟨-, hes', hr₁'⟩ := check_frames he' hr'
    rw [RootedC.checkArguments, Expr.unariesAll]
    refine .bind (check_agrees e c a hs) (check_lenient hs he' hab hr hr')
      (List.subset_append_left _ _) ?_
    rintro te c₁ a₁ he ⟨hs₁, -⟩
    obtain ⟨hab₁, htt⟩ := check_approx he he' hab hr hr'
    have hr₁ := (check_grows he hr).1.ready hr
    have hok : ty.agrees te.ty = true := by
      rcases htt with hhole | hty
      · simp [Ty.agrees, hhole, Ty.isHole]
      · rw [hty]
        exact hagree
    rw [if_pos hok]
    exact .bind (checkArguments_agrees more tys c₁ a₁ hs₁)
      (checkArguments_lenient hs₁ hm' hab₁ hr₁ hr₁') (List.subset_append_right _ _)
      fun _ _ _ _ _ => .of_ok rfl

theorem checkDeclarations_lenient {site : Site} : ∀ {ds : List (Declaration Expr)} {scope : Nat}
    {rest : List Nat} {c : Context} {a b b' : Activation} {uds : List (String × Typed.Expr)}
    {f g : Frame} {fs gs : List Frame}, Shows site (scope :: rest) c a →
      checkDeclarations site.outside scope ds b = some (uds, b') → a.Approx b →
      Ready True site.outside a → Ready False site.outside b → a.frames = f :: fs →
      b.frames = g :: gs → f.scope = scope →
      Lenient (Expr.unariesDeclared ds) (RootedC.checkDeclarations scope ds c)
  | [], scope, rest, c, a, b, b', uds, f, g, fs, gs, hs, h, hab, hr, hr', hf, hg, hscope => by
    rw [RootedC.checkDeclarations]
    exact .of_ok rfl
  | ⟨z, type?, value, span⟩ :: more, scope, rest, c, a, b, b', uds, f, g, fs, gs, hs, h, hab, hr,
      hr', hf, hg, hscope => by
    subst hscope
    obtain ⟨v', b₁, rest', hv', hagree, hm', rfl⟩ := checkDeclarations_cons_eq_some.mp h
    rw [RootedC.checkDeclarations, Expr.unariesDeclared]
    refine .bind (check_agrees value c a hs) (check_lenient hs hv' hab hr hr')
      (List.subset_append_left _ _) ?_
    rintro v c₁ a₁ hv ⟨hs₁, -⟩
    obtain ⟨hab₁, hvt⟩ := check_approx hv hv' hab hr hr'
    obtain ⟨hgrows, hk⟩ := check_grows hv hr
    obtain ⟨hgrows', hk'⟩ := check_grows hv' hr'
    have hscope : f.scope = g.scope := by
      have hframes := hab.frames
      rw [hf, hg] at hframes
      exact (List.forall₂_cons.mp hframes).1.scope
    have hd := hgrows.declares hr hf z hk
    have hd' := hgrows'.declares hr' hg z hk'
    rw [← hscope] at hd'
    obtain ⟨f₁, fs₁, hf₁, hs₁'⟩ := hd.frames_eq hf
    obtain ⟨g₁, gs₁, hg₁, -⟩ := hd'.frames_eq hg
    have hmore : Lenient (value.unaries ++ Expr.unariesDeclared more)
        ((Check.define f.scope z v.ty >>= fun _ => RootedC.checkDeclarations f.scope more >>=
          fun ds => pure ((z, v) :: ds)) c₁) := by
      refine .step (Agrees.define List.mem_cons_self z v.ty c₁ a₁ hs₁) rfl fun c₂ hs₂ => ?_
      exact .bind (checkDeclarations_agrees more c₂ _ hs₂)
        (checkDeclarations_lenient hs₂ hm' ⟨approx_define hab₁.frames _ _ hvt, hab₁.next⟩
          (hd.ready hr) (hd'.ready hr') hf₁ hg₁ hs₁')
        (List.subset_append_right _ _) fun _ _ _ _ _ => .of_ok rfl
    cases type? with
    | none => exact hmore
    | some t =>
      rw [Option.all_some] at hagree
      cases ht : t.toTy with
      | error d => simp [ht, Except.toOption] at hagree
      | ok declared =>
        have hok : declared.agrees v.ty = true := by
          rcases hvt with hhole | hty
          · simp [Ty.agrees, hhole, Ty.isHole]
          · simpa [ht, Except.toOption, hty] using hagree
        have hlift : Matches (fun _ c' () => c' = c₁) (Check.lift t.toTy c₁)
            (some (declared, ())) := .of_ok declared rfl (by rw [ht]; rfl) rfl
        refine .step hlift rfl fun c₂ hc => .expectTy hok ?_
        rw [hc]
        exact hmore

end

section Procedures
variable {w : Outside} {n : Nat} {ps : List Parameter} {ts : List TypeExpr}
  {result? : Option TypeExpr} {body : Expr} {span : Span} {written : List Ty}

/-- Only a parameter without a written type starts as a hole. -/
theorem exists_unwritten (hw : Check.writtenTypes ps = .ok written) :
    ∀ q ∈ (ps.map (·.name)).zip written, q.2 = .hole → ∃ p ∈ ps, p.name = q.1 ∧ p.type? = none := by
  have hwritten := writtenTypes_forall₂ hw
  clear hw
  induction hwritten with
  | nil => simp
  | @cons p ty ps written hp _ ih =>
    intro q hq hhole
    rcases List.mem_cons.mp hq with rfl | hq
    · refine ⟨p, List.mem_cons_self, rfl, ?_⟩
      cases ht : p.type? with
      | none => rfl
      | some t =>
        have hs := TypeExpr.settled_of_toTy (hp.1 t ht)
        rw [show ty = .hole from hhole] at hs
        cases hs
    · obtain ⟨p', hp', h⟩ := ih q hq hhole
      exact ⟨p', List.mem_cons_of_mem _ hp', h⟩

/-- Every parameter that some unary operator stands before has a type after the first pass. -/
theorem foundTypes_settled {e : Typed.Expr} {a : Activation}
    (hg : ∀ x t, w.globals.get? x = some t → t.settled = true)
    (hnodup : (ps.map (·.name)).Nodup) (hw : Check.writtenTypes ps = .ok written)
    (hops : ∀ p ∈ ps, p.type? = none → body.operatorsOn p.name ≠ [])
    (h : check w body ⟨[.ofParameters n ((ps.map (·.name)).zip written)], 0, n + 1⟩ = some (e, a)) :
    ∀ t ∈ foundTypes a.frames ((ps.map (·.name)).zip written), t.isHole = false := by
  obtain ⟨hlen, hknown⟩ := writtenTypes_known hw
  have hfst : (((ps.map (·.name)).zip written).map (·.1)).Nodup := by
    rwa [List.map_fst_zip (by simp [hlen])]
  have hready : Ready True w ⟨[.ofParameters n ((ps.map (·.name)).zip written)], 0, n + 1⟩ :=
    .ofParameters (fun p hp => hknown _ (List.of_mem_zip hp).2) hg
  intro t ht
  obtain ⟨q, hq, rfl⟩ := List.mem_map.mp ht
  have hfind : Frame.find q.1 0 [.ofParameters n ((ps.map (·.name)).zip written)] =
      some ⟨q.2, 0, n⟩ := Frame.find_ofParameters hfst hq
  have hsettles : Settles q.1 a.frames := by
    rcases hknown q.2 (List.of_mem_zip hq).2 with hs | ⟨-, hhole⟩
    · exact ⟨_, (check_grows h hready).1.frames.find_of_settled hfind hs, hs⟩
    · obtain ⟨p, hp, hname, hnone⟩ := exists_unwritten hw q hq hhole
      refine check_settles h hready (.inl ?_) (hname ▸ hops p hp hnone)
      rw [hfind]
      rfl
  obtain ⟨r, hr, hs⟩ := hsettles
  rw [hr]
  exact Ty.isHole_eq_false_of_settled hs

/-- After a first pass that found all types the procedure is accepted if it is so with the types
written. -/
theorem checkProcedure_of_first {Q : Typed.Procedure Typed.Expr} {m : Nat} {e : Typed.Expr}
    {a : Activation} (hg : ∀ x t, w.globals.get? x = some t → t.settled = true)
    (hlen : ts.length = ps.length)
    (h' : checkProcedure w n ⟨ps.zipWith Parameter.annotate ts, result?, body, span⟩ = some (Q, m))
    (hops : ∀ p ∈ ps, p.type? = none → body.operatorsOn p.name ≠ [])
    (hw : Check.writtenTypes ps = .ok written)
    (h : check w body ⟨[.ofParameters n ((ps.map (·.name)).zip written)], 0, n + 1⟩ = some (e, a)) :
    ∃ P n', checkProcedure w n ⟨ps, result?, body, span⟩ = some (P, n') ∧
      P.parameters = Q.parameters := by
  rw [checkProcedure_written annotate_isSome, annotate_names hlen] at h'
  obtain ⟨hnodup, tys, e', slots, fs, hhas, he', hresult, rfl⟩ := h'
  have hnone := foundTypes_settled hg hnodup hw hops h
  have hfound := eq_of_approx (foundTypes_approx hg hnodup hw hhas hlen h he') hnone
  have hholes : ∀ q ∈ ps.zip tys, q.2.isHole = false := fun q hq =>
    Ty.isHole_eq_false_of_settled (settled_of_has hhas _ (List.of_mem_zip hq).2)
  have hresult' : ∀ t ∈ result?, t.toTy = .ok e'.ty := fun t ht =>
    TypeExpr.toTy_eq_ok.mpr (hresult t ht)
  cases hf : Check.anyFilled written (foundTypes a.frames ((ps.map (·.name)).zip written)) with
  | true =>
    -- the second pass is the one from the written types, a few scopes later
    obtain ⟨hgrows, -⟩ := check_body_grows hg _ _ _ _ h fun p hp =>
      (writtenTypes_known hw).2 _ (List.of_mem_zip hp).2
    have hnext := hgrows.next
    simp only at hnext
    obtain ⟨d, hd⟩ := Nat.exists_eq_add_of_le (show n ≤ a.next by omega)
    have he₂ : check w body ⟨[.ofParameters (n + d) ((ps.map (·.name)).zip tys)], 0, n + d + 1⟩ =
        some (e'.relabel (.shift d), Activation.shift d ⟨fs, slots, m⟩) := by
      rw [check_body_shift, he']
      rfl
    have hl := LastPass.second h hf
    rw [hfound, hd] at hl
    refine ⟨_, _, checkProcedure_eq_some.mpr ⟨hnodup, written, _, _, _, _, hw, hl, he₂,
      closeProcedure_eq_some.mpr ⟨hholes, ?_, rfl, rfl⟩⟩, rfl⟩
    rw [Typed.Expr.ty_relabel]
    exact hresult'
  | false =>
    have hall : ∀ t ∈ written, t.isHole = false := by
      intro t ht
      obtain ⟨i, hi, rfl⟩ := List.getElem_of_mem ht
      have hlw := (writtenTypes_known hw).1
      have hi' : i < (foundTypes a.frames ((ps.map (·.name)).zip written)).length := by
        simpa [foundTypes, hlw] using hi
      have hp := List.any_eq_false.mp hf (written[i], (foundTypes a.frames _)[i])
        (List.mem_iff_getElem.mpr ⟨i, by rw [List.length_zip]; omega, by simp⟩)
      simpa [hnone _ (List.getElem_mem hi')] using hp
    obtain rfl := eq_of_approx (approx_annotate hw hhas hlen) hall
    exact ⟨_, _, checkProcedure_eq_some.mpr ⟨hnodup, written, _, _, _, _, hw, .first h hf, he',
      closeProcedure_eq_some.mpr ⟨hholes, hresult', rfl, rfl⟩⟩, rfl⟩

theorem exists_writtenTypes {tys : List Ty}
    (hhas : List.Forall₂ Parameter.Has (ps.zipWith Parameter.annotate ts) tys)
    (hlen : ts.length = ps.length) : ∃ written, Check.writtenTypes ps = .ok written := by
  induction ps generalizing ts tys with
  | nil => exact ⟨[], rfl⟩
  | cons p more ih =>
    cases ts with
    | nil => cases hlen
    | cons t ts =>
      obtain ⟨ty, tys', ⟨u, hu, hden⟩, hmore, rfl⟩ := List.forall₂_cons_left_iff.mp hhas
      obtain ⟨written, hw⟩ := ih hmore (Nat.succ.inj hlen)
      cases ht : p.type? with
      | none =>
        exact ⟨.hole :: written, writtenTypes_cons.mpr ⟨_, _, by simp [ht], by simp, hw, rfl⟩⟩
      | some v =>
        simp only [Parameter.annotate, ht, Option.getD_some, Option.some.injEq] at hu
        subst hu
        refine ⟨ty :: written,
          writtenTypes_cons.mpr ⟨_, _, fun v' hv' => ?_, by simp [ht], hw, rfl⟩⟩
        rw [ht, Option.mem_some_iff] at hv'
        exact hv' ▸ TypeExpr.toTy_eq_ok.mpr hden

/-- The first pass over a body that is accepted with the types of the parameters written. -/
theorem first_lenient {site : Site} {c : Context} {tys : List Ty} {e' : Typed.Expr}
    {a' : Activation} (hg : ∀ x t, site.outside.globals.get? x = some t → t.settled = true)
    (hlen : ts.length = ps.length) (hw : Check.writtenTypes ps = .ok written)
    (hhas : List.Forall₂ Parameter.Has (ps.zipWith Parameter.annotate ts) tys)
    (hs : Shows site [n] c ⟨[.ofParameters n ((ps.map (·.name)).zip written)], 0, n + 1⟩)
    (h : check site.outside body ⟨[.ofParameters n ((ps.map (·.name)).zip tys)], 0, n + 1⟩ =
      some (e', a')) : Lenient body.unaries (body.check n c) :=
  check_lenient hs h
    ⟨.cons (.ofParameters (approxParameters_zip (approx_annotate hw hhas hlen) _) n) .nil, rfl⟩
    (.ofParameters (fun _ hp => (writtenTypes_known hw).2 _ (List.of_mem_zip hp).2) hg)
    (.ofParameters (fun _ hp => .inl (settled_of_has hhas _ (List.of_mem_zip hp).2)) hg)

theorem parameters_of_has {tys : List Ty} (h : List.Forall₂ Parameter.Has ps tys) :
    List.Forall₂ (fun (p : Parameter) (q : String × Ty) =>
      p.name = q.1 ∧ ∃ t, p.type? = some t ∧ t.toTy = .ok q.2) ps ((ps.map (·.name)).zip tys) := by
  induction h with
  | nil => exact .nil
  | cons hp _ ih =>
    obtain ⟨t, ht, hden⟩ := hp
    exact .cons ⟨rfl, t, ht, TypeExpr.toTy_eq_ok.mpr hden⟩ ih

end Procedures

end Lexical

open Lexical in
/-- Where a parameter stands under a unary operator does not matter, but for one way to fail. Let a
procedure be accepted with types written for its parameters, and let every parameter without one be
the operand of some unary operator of the body. Then the procedure is accepted without them, with
those types; or it is refused at a unary operator whose operand is not a name and has a type that
only the parameters tell. -/
theorem Procedure.check_of_annotate {c c' : Context} {parent : Nat} {literal : Procedure Expr}
    {ts : List TypeExpr} {Q : Typed.Procedure Typed.Expr} (hc : c.Reachable)
    (hp : parent < c.scopes.size) (hlen : ts.length = literal.parameters.length)
    (hops : ∀ p ∈ literal.parameters, p.type? = none → literal.body.operatorsOn p.name ≠ [])
    (h : (literal.annotate ts).check parent c = .ok Q c') :
    (∃ P c'', literal.check parent c = .ok P c'' ∧
      List.Forall₂ (fun p q => p.name = q.1 ∧ ∃ t, p.type? = some t ∧ t.toTy = .ok q.2)
        (literal.annotate ts).parameters P.parameters) ∨
    ∃ op operand position c'', (op, operand, position) ∈ literal.body.unaries ∧
      operand.isOpenCompound = true ∧
      literal.check parent c = .error ⟨.badOperand op.symbol "_", position⟩ c'' := by
  obtain ⟨site, hhead, hholds, hg⟩ := hc.holds hp
  obtain ⟨ps, result?, body, span⟩ := literal
  have hcheck := hholds.check_iff hhead
  obtain ⟨m, hQ⟩ := (hcheck _ _).mp ⟨c', h⟩
  obtain ⟨hnodup, tys, e', slots, fs, hhas, he', -, rfl⟩ :=
    (checkProcedure_written annotate_isSome).mp hQ
  rw [annotate_names hlen] at hnodup he'
  obtain ⟨written, hw⟩ := exists_writtenTypes hhas hlen
  obtain ⟨c₁, hc₁, hs₁⟩ := hholds.openProcedure hhead ((ps.map (·.name)).zip written)
  have hbody := check_agrees body c₁ _ hs₁
  rcases first_lenient hg hlen hw hhas hs₁ he' with ⟨e, c₂, hrun⟩ | ⟨u, hu, ho, c₂, hrun⟩
  · left
    obtain ⟨a, hfirst, -⟩ := hbody.exists_eq_some hrun
    obtain ⟨P, n', hP, hparameters⟩ := checkProcedure_of_first hg hlen hQ hops hw hfirst
    obtain ⟨c'', hP⟩ := (hcheck _ _).mpr ⟨n', hP⟩
    refine ⟨P, c'', hP, ?_⟩
    rw [hparameters]
    exact parameters_of_has hhas
  · right
    refine ⟨u.1, u.2.1, u.2.2, c₂, hu, ho, ?_⟩
    have hd := checkDistinct_run [] ps c
    rw [if_pos ⟨hnodup, by simp⟩] at hd
    rw [Procedure.check]
    simp only [bind_run, hd, Check.lift, hw, pure_run, hc₁, hrun]

/-- `proc(a) { -(a + a); -a }` -/
def Procedure.negatedSum : Procedure Expr :=
  let s : Span := .empty .nowhere
  let minus (e : Expr) : Expr := .unary ⟨.dash, "-", s⟩ e s
  let sum : Expr := .binary (.name "a" s) ⟨.plus, "+", s⟩ (.name "a" s) s
  ⟨[⟨"a", none, s⟩], none, .block [minus sum, minus (.name "a" s)] s, s⟩

/-- The sum has no type yet when the first pass comes to the operator before it. -/
theorem Procedure.negatedSum_refused :
    (∃ Q c', (negatedSum.annotate [.name "i32" .nowhere]).check 0 .initial = .ok Q c') ∧
      UnaryOp.negate ∈ negatedSum.body.operatorsOn "a" ∧
      ∀ P c', negatedSum.check 0 .initial ≠ .ok P c' := by
  have hwritten : ((negatedSum.annotate [.name "i32" .nowhere]).check 0 .initial matches .ok ..) =
      true := by
    decide +kernel
  have hfound : (negatedSum.check 0 .initial matches .ok ..) = false := by decide +kernel
  refine ⟨?_, by decide, fun P c' h => ?_⟩
  · generalize (negatedSum.annotate [.name "i32" .nowhere]).check 0 .initial = r at hwritten
    cases r with
    | ok Q c' => exact ⟨Q, c', rfl⟩
    | error d c' => cases hwritten
  · rw [h] at hfound
    cases hfound

/-- `proc(a, b) { if b { a + 1 } else { let c: i32 = a { c } }; !b; -a }` -/
def Procedure.lateOperators : Procedure Expr :=
  let s : Span := .empty .nowhere
  let sum : Expr := .binary (.name "a" s) ⟨.plus, "+", s⟩ (.number 1 s) s
  let bound : Expr := .letIn [⟨"c", some (.name "i32" .nowhere), .name "a" s, s⟩] (.name "c" s) s
  ⟨[⟨"a", none, s⟩, ⟨"b", none, s⟩], none, .block [.branch (.name "b" s) sum (some bound) s,
    .unary ⟨.bang, "!", s⟩ (.name "b" s) s, .unary ⟨.dash, "-", s⟩ (.name "a" s) s] s, s⟩

theorem Procedure.lateOperators_accepted :
    ∃ P c', lateOperators.check 0 .initial = .ok P c' ∧
      P.parameters = [("a", .i32), ("b", .bool)] := by
  have hwritten : ((lateOperators.annotate [.name "i32" .nowhere, .name "bool" .nowhere]).check 0
      .initial matches .ok ..) = true := by
    decide +kernel
  generalize hr : (lateOperators.annotate [.name "i32" .nowhere, .name "bool" .nowhere]).check 0
      .initial = r at hwritten
  cases r with
  | error d c' => cases hwritten
  | ok Q c' =>
    have hops : ∀ p ∈ lateOperators.parameters, p.type? = none →
        lateOperators.body.operatorsOn p.name ≠ [] := by
      decide
    rcases check_of_annotate .refl (by decide) rfl hops hr with ⟨P, c'', hP, hparameters⟩ | hblocked
    · obtain ⟨p, _, ⟨hx, t, ht, hty⟩, hmore, hps⟩ := List.forall₂_cons_left_iff.mp hparameters
      obtain ⟨q, _, ⟨hy, u, hu, huy⟩, hnil, rfl⟩ := List.forall₂_cons_left_iff.mp hmore
      cases ht
      cases hu
      rw [List.forall₂_nil_left_iff.mp hnil] at hps
      refine ⟨P, c'', hP, ?_⟩
      rw [hps, show p = ("a", .i32) from Prod.ext hx.symm (Except.ok.inj hty.symm),
        show q = ("b", .bool) from Prod.ext hy.symm (Except.ok.inj huy.symm)]
    · obtain ⟨op, operand, position, c'', hu, ho, -⟩ := hblocked
      have hnone : ∀ u ∈ lateOperators.body.unaries, u.2.1.isOpenCompound = false := by decide
      rw [hnone _ hu] at ho
      cases ho

end RootedC
