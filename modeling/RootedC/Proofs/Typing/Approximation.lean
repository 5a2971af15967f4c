import RootedC.Proofs.Typing.Fits

/-!
A pass with holes and one without. Two successful passes over the same expression, one of which
starts with holes for some of the types of the other, end in the same way: whatever type the one has
found, the other had it from the start.
-/
namespace RootedC

/-- A type that is the other one or not known yet. -/
def Ty.Approx (t u : Ty) : Prop := t = .hole ∨ t = u

namespace Ty.Approx

theorem refl (t : Ty) : t.Approx t := .inr rfl

theorem settle {t t' u : Ty} (h : t.Approx u) (h' : t'.Approx u) : (t.settle t').Approx u := by
  unfold Ty.settle
  split
  · exact h'
  · exact h

theorem eq_of_settled {t u : Ty} (h : t.Approx u) (ht : t.settled = true) : t = u := by
  rcases h with rfl | h
  · cases ht
  · exact h

end Ty.Approx

theorem BinaryOp.approx_resultTy (op : BinaryOp) {t u : Ty} (h : t.Approx u) :
    (op.resultTy t).Approx (op.resultTy u) := by
  unfold resultTy
  split
  · exact .refl _
  · exact h

namespace Lexical

/-- Two frames of one scope that bind the same names. -/
structure Frame.Approx (f g : Frame) : Prop where
  scope : f.scope = g.scope
  bindings : ∀ x, Option.Rel Ty.Approx (f.bindings.get? x) (g.bindings.get? x)

/-- Two activations that have come equally far. -/
structure Activation.Approx (a b : Activation) : Prop where
  frames : List.Forall₂ Frame.Approx a.frames b.frames
  next : a.next = b.next

section Frames
variable {fs gs : List Frame}

theorem Frame.Approx.define {f g : Frame} (h : f.Approx g) (scope : Nat) (z : String) {t u : Ty}
    (ht : t.Approx u) : (f.define scope z t).Approx (g.define scope z u) := by
  unfold Frame.define
  rw [h.scope]
  split
  · refine ⟨rfl, fun x => ?_⟩
    by_cases hx : x = z
    · subst hx
      simp only [Bindings.get?_bind_self]
      exact .some ht
    · simp only [Bindings.get?_bind_of_ne _ _ hx]
      exact h.bindings x
  · exact h

theorem approx_define (h : List.Forall₂ Frame.Approx fs gs) (scope : Nat) (z : String) {t u : Ty}
    (ht : t.Approx u) :
    List.Forall₂ Frame.Approx (fs.map (Frame.define scope z t))
      (gs.map (Frame.define scope z u)) := by
  rw [List.forall₂_map_left_iff, List.forall₂_map_right_iff]
  exact h.imp fun _ _ hfg => hfg.define scope z ht

/-- A name is found in both at the same place. -/
theorem approx_find (h : List.Forall₂ Frame.Approx fs gs) (x : String) (level : Nat) :
    Option.Rel (fun r s => r.ty.Approx s.ty ∧ r.level = s.level ∧ r.scope = s.scope)
      (Frame.find x level fs) (Frame.find x level gs) := by
  induction h generalizing level with
  | nil => exact .none
  | @cons f g fs gs hfg hmore ih =>
    have hx := hfg.bindings x
    cases hf : f.bindings.get? x with
    | some t =>
      cases hg : g.bindings.get? x with
      | some u =>
        rw [hf, hg] at hx
        simp only [Frame.find, hf, hg]
        cases hx with
        | some ht => exact .some ⟨ht, rfl, hfg.scope⟩
      | none =>
        rw [hf, hg] at hx
        cases hx
    | none =>
      cases hg : g.bindings.get? x with
      | some u =>
        rw [hf, hg] at hx
        cases hx
      | none =>
        simp only [Frame.find, hf, hg]
        exact ih (level + 1)

theorem isSome_find_eq (h : List.Forall₂ Frame.Approx fs gs) (x : String) :
    (Frame.find x 0 fs).isSome = (Frame.find x 0 gs).isSome := by
  have hx := approx_find h x 0
  generalize Frame.find x 0 fs = r at hx ⊢
  generalize Frame.find x 0 gs = s at hx ⊢
  cases hx <;> rfl

/-- Parameters of the same names, some of whose types are not known yet. -/
def ApproxParameters (ps qs : List (String × Ty)) : Prop :=
  List.Forall₂ (fun p q => p.1 = q.1 ∧ p.2.Approx q.2) ps qs

theorem Frame.Approx.ofParameters {ps qs : List (String × Ty)} (h : ApproxParameters ps qs)
    (n : Nat) : (Frame.ofParameters n ps).Approx (.ofParameters n qs) := by
  refine ⟨rfl, ?_⟩
  suffices hb : ∀ bs cs : Bindings Ty,
      (∀ x, Option.Rel Ty.Approx (bs.get? x) (cs.get? x)) → ∀ x, Option.Rel Ty.Approx
        ((ps.foldl (fun bs p => bs.bind p.1 p.2) bs).get? x)
        ((qs.foldl (fun bs p => bs.bind p.1 p.2) cs).get? x) from
    hb [] [] fun _ => .none
  induction h with
  | nil => exact fun _ _ hb => hb
  | @cons p q ps qs hpq _ ih =>
    obtain ⟨hname, hty⟩ := hpq
    refine fun bs cs hb => ih _ _ fun x => ?_
    beta_reduce
    rw [← hname]
    by_cases hx : x = p.1
    · rw [hx, Bindings.get?_bind_self, Bindings.get?_bind_self]
      exact .some hty
    · rw [Bindings.get?_bind_of_ne _ _ hx, Bindings.get?_bind_of_ne _ _ hx]
      exact hb x

theorem approx_foundTypes (h : List.Forall₂ Frame.Approx fs gs) {ps qs : List (String × Ty)}
    (hps : ApproxParameters ps qs) :
    List.Forall₂ Ty.Approx (foundTypes fs ps) (foundTypes gs qs) := by
  rw [foundTypes, foundTypes, List.forall₂_map_left_iff, List.forall₂_map_right_iff]
  refine hps.imp fun p q hpq => ?_
  obtain ⟨hname, hty⟩ := hpq
  have hrel := approx_find h p.1 0
  rw [← hname]
  generalize Frame.find p.1 0 fs = r at hrel ⊢
  generalize Frame.find p.1 0 gs = s at hrel ⊢
  cases hrel with
  | none => exact hty
  | some h => exact h.1

/-- Procedures inside see no difference. -/
theorem enter_eq (w : Outside) (h : List.Forall₂ Frame.Approx fs gs) : w.enter fs = w.enter gs := by
  simp only [Outside.enter, h.length_eq, isSome_find_eq h]

/-- A hole is filled with the type that the other frames have in its place. -/
theorem approx_fill (h : List.Forall₂ Frame.Approx fs gs) (hs : (fs.map Frame.scope).Nodup)
    {z : String} {level i scope : Nat} {u : Ty}
    (hf : Frame.find z level fs = some ⟨.hole, i, scope⟩)
    (hg : Frame.find z level gs = some ⟨u, i, scope⟩) :
    List.Forall₂ Frame.Approx (fs.map (Frame.define scope z u)) gs := by
  induction h generalizing level with
  | nil => cases hf
  | @cons f g fs gs hfg hmore ih =>
    rw [List.map_cons, List.nodup_cons] at hs
    have hx := hfg.bindings z
    cases hfz : f.bindings.get? z with
    | some t =>
      simp only [Frame.find, hfz, Option.some.injEq, BindingSite.mk.injEq] at hf
      obtain ⟨rfl, rfl, rfl⟩ := hf
      rw [List.map_cons, Frame.map_define_of_not_mem hs.1]
      refine .cons ⟨?_, fun x => ?_⟩ hmore
      · rw [Frame.scope_define, hfg.scope]
      · rw [Frame.define, if_pos rfl]
        by_cases hxz : x = z
        · subst hxz
          cases hgz : g.bindings.get? x with
          | some u' =>
            simp only [Frame.find, hgz, Option.some.injEq, BindingSite.mk.injEq] at hg
            rw [Bindings.get?_bind_self, hg.1]
            exact .some (.refl u)
          | none =>
            rw [hfz, hgz] at hx
            cases hx
        · rw [Bindings.get?_bind_of_ne _ _ hxz]
          exact hfg.bindings x
    | none =>
      have hgz : g.bindings.get? z = none := by
        cases hgz : g.bindings.get? z with
        | none => rfl
        | some u' =>
          rw [hfz, hgz] at hx
          cases hx
      simp only [Frame.find, hfz] at hf
      simp only [Frame.find, hgz] at hg
      have hne : f.scope ≠ scope := by
        rintro rfl
        obtain ⟨inner, f', outer, rfl, hscope⟩ := find_split hf
        exact hs.1 (List.mem_map.mpr ⟨f', by simp, hscope.symm⟩)
      rw [List.map_cons, Frame.define, if_neg hne]
      exact .cons hfg (ih hs.2 hf hg)

end Frames

theorem Activation.Ordered.nodup {a : Activation} (h : a.Ordered) :
    (a.frames.map Frame.scope).Nodup :=
  h.scopes.imp fun h => Nat.ne_of_gt h

theorem Activation.Approx.openLet {a b : Activation} (h : a.Approx b) :
    Activation.Approx { a with frames := ⟨a.next, []⟩ :: a.frames, next := a.next + 1 }
      { b with frames := ⟨b.next, []⟩ :: b.frames, next := b.next + 1 } :=
  ⟨.cons ⟨h.next, fun _ => .none⟩ h.frames, congrArg (· + 1) h.next⟩

theorem Activation.Approx.of_rootFor {a b a' b' : Activation} (h : a.Approx b) {t u : Ty}
    {r s : Option Nat} (ha : Pass.rootFor t a = some (r, a'))
    (hb : Pass.rootFor u b = some (s, b')) :
    a'.Approx b' := by
  obtain ⟨-, ha⟩ := rootFor_eq_some.mp ha
  obtain ⟨-, hb⟩ := rootFor_eq_some.mp hb
  rw [ha, hb]
  exact ⟨h.frames, h.next⟩

theorem checkCallee_approx {w : Outside} {callee : Expr} {a b a' b' : Activation}
    {c c' : Typed.Callee Typed.Expr} {ty ty' : Ty}
    (h : checkCallee w callee a = some ((c, ty), a'))
    (h' : checkCallee w callee b = some ((c', ty'), b')) (hab : a.Approx b) :
    a'.Approx b' ∧ ty = ty' := by
  rcases checkCallee_eq_some.mp h with ⟨literal, P, rfl, rfl, rfl, hP, ha⟩ | ⟨z, s, rfl, hn⟩
  · rcases checkCallee_eq_some.mp h' with ⟨_, Q, hl, rfl, rfl, hQ, hb⟩ | ⟨_, _, hl, -⟩
    · cases hl
      rw [enter_eq w hab.frames, hab.next, hQ, Option.some.injEq, Prod.mk.injEq] at hP
      rw [ha, hb]
      exact ⟨⟨hab.frames, hP.2.symm⟩, congrArg Typed.Procedure.ty hP.1.symm⟩
    · cases hl
  · rcases checkCallee_eq_some.mp h' with ⟨_, _, hl, -⟩ | ⟨_, _, hl, hn'⟩
    · cases hl
    · cases hl
      obtain ⟨rfl, -, -, hcase⟩ := checkCalleeName_eq_some.mp hn
      obtain ⟨rfl, -, -, hcase'⟩ := checkCalleeName_eq_some.mp hn'
      refine ⟨hab, ?_⟩
      rcases hcase with ⟨hg, -, -⟩ | ⟨hg, b, hb, rfl, -⟩
      · rcases hcase' with ⟨hg', -, -⟩ | ⟨hg', -⟩
        · exact Option.some.inj (hg.symm.trans hg')
        · rw [hg] at hg'
          cases hg'
      · rcases hcase' with ⟨hg', -, -⟩ | ⟨-, b', hb', rfl, -⟩
        · rw [hg] at hg'
          cases hg'
        · rw [Option.some.inj (hb.symm.trans hb')]

/-- The operand of a unary operator, which fills a hole in one pass and finds its type in the
other. -/
theorem fillHole_approx {w : Outside} {e : Expr} {a b a₁ b₁ a' b' : Activation} {op : UnaryOp}
    {x y x' y' : Typed.Expr} (hx : check w e a = some (x, a₁)) (hx' : check w e b = some (x', b₁))
    (hfill : Pass.fillHole op.ty x a₁ = some (y, a'))
    (hfill' : Pass.fillHole op.ty x' b₁ = some (y', b')) (hy' : y'.ty = op.ty) (hab : a₁.Approx b₁)
    (hr : Ready True w a) (hr' : Ready False w b) : a'.Approx b' := by
  obtain ⟨-, hs, -⟩ := check_frames hx' hr'
  obtain ⟨rfl, rfl⟩ := fillHole_of_settled hfill' hs
  rcases fillHole_eq_some.mp hfill with ⟨_, span, z, level, scope, rfl, -, rfl⟩ | ⟨-, -, rfl⟩
  · obtain ⟨rfl, rfl, hfind⟩ := check_eq_name hx
    rw [check] at hx'
    have hrel := approx_find hab.frames z 0
    obtain ⟨rfl, ⟨r, hr', -, rfl⟩ | ⟨hnone, -⟩⟩ := checkName_eq_some.mp hx'
    · rw [hfind, hr'] at hrel
      obtain ⟨ty, i, s⟩ := r
      cases hrel with
      | some h =>
        obtain ⟨-, rfl, rfl⟩ := h
        refine ⟨?_, hab.next⟩
        rw [← hy']
        exact approx_fill hab.frames hr.ordered.nodup hfind hr'
    · rw [hfind, hnone] at hrel
      cases hrel
  · exact hab

theorem approx_last {tes ues : List Typed.Expr}
    (h : List.Forall₂ (fun t u => t.ty.Approx u.ty) tes ues) :
    Ty.Approx ((tes.getLast?.map (·.ty)).getD .unit) ((ues.getLast?.map (·.ty)).getD .unit) := by
  induction h with
  | nil => exact .refl _
  | @cons t u ts us htu hmore ih =>
    cases hmore with
    | nil => exact htu
    | cons => simpa using ih

mutual

theorem check_approx : ∀ {e : Expr} {w : Outside} {a b a' b' : Activation} {te ue : Typed.Expr},
    check w e a = some (te, a') → check w e b = some (ue, b') → a.Approx b → Ready True w a →
      Ready False w b → a'.Approx b' ∧ te.ty.Approx ue.ty
  | .number _ _, w, a, b, a', b', te, ue, h, h', hab, hr, hr' => by
    obtain ⟨rfl, rfl⟩ := check_number_eq_some.mp h
    obtain ⟨rfl, rfl⟩ := check_number_eq_some.mp h'
    exact ⟨hab, .refl _⟩
  | .text _ _, w, a, b, a', b', te, ue, h, h', hab, hr, hr' => by
    obtain ⟨rfl, rfl⟩ := check_text_eq_some.mp h
    obtain ⟨rfl, rfl⟩ := check_text_eq_some.mp h'
    exact ⟨hab, .refl _⟩
  | .boolean _ _, w, a, b, a', b', te, ue, h, h', hab, hr, hr' => by
    obtain ⟨rfl, rfl⟩ := check_boolean_eq_some.mp h
    obtain ⟨rfl, rfl⟩ := check_boolean_eq_some.mp h'
    exact ⟨hab, .refl _⟩
  | .unit _, w, a, b, a', b', te, ue, h, h', hab, hr, hr' => by
    obtain ⟨rfl, rfl⟩ := check_unit_eq_some.mp h
    obtain ⟨rfl, rfl⟩ := check_unit_eq_some.mp h'
    exact ⟨hab, .refl _⟩
  | .name z _, w, a, b, a', b', te, ue, h, h', hab, hr, hr' => by
    rw [check] at h h'
    obtain ⟨rfl, hcase⟩ := checkName_eq_some.mp h
    obtain ⟨rfl, hcase'⟩ := checkName_eq_some.mp h'
    refine ⟨hab, ?_⟩
    have hrel := approx_find hab.frames z 0
    rcases hcase with ⟨r, hf, -, rfl⟩ | ⟨hf, -, ty, hg, -, rfl⟩
    · rcases hcase' with ⟨r', hf', -, rfl⟩ | ⟨hf', -⟩
      · rw [hf, hf'] at hrel
        cases hrel with
        | some h => exact h.1
      · rw [hf, hf'] at hrel
        cases hrel
    · rcases hcase' with ⟨r', hf', -⟩ | ⟨-, -, ty', hg', -, rfl⟩
      · rw [hf, hf'] at hrel
        cases hrel
      · exact .inr (Option.some.inj (hg.symm.trans hg'))
  | .unary _ operand _, w, a, b, a', b', te, ue, h, h', hab, hr, hr' => by
    obtain ⟨op, x, a₁, y, hop, hx, hfill, hty, rfl⟩ := check_unary_eq_some.mp h
    obtain ⟨op', x', b₁, y', hop', hx', hfill', hty', rfl⟩ := check_unary_eq_some.mp h'
    cases Option.some.inj (hop.symm.trans hop')
    obtain ⟨hab₁, -⟩ := check_approx hx hx' hab hr hr'
    exact ⟨fillHole_approx hx hx' hfill hfill' hty' hab₁ hr hr', .refl _⟩
  | .binary left _ right _, w, a, b, a', b', te, ue, h, h', hab, hr, hr' => by
    obtain ⟨op, l, r, a₁, hop, hl, hright, -, -, rfl⟩ := check_binary_eq_some.mp h
    obtain ⟨op', l', r', b₁, hop', hl', hright', hagree, -, rfl⟩ := check_binary_eq_some.mp h'
    cases Option.some.inj (hop.symm.trans hop')
    obtain ⟨-, hls, hr₁'⟩ := check_frames hl' hr'
    obtain ⟨-, hrs, -⟩ := check_frames hright' hr₁'
    have heq := (Ty.agrees_iff_of_settled hls hrs).mp hagree
    obtain ⟨hab₁, hlt⟩ := check_approx hl hl' hab hr hr'
    obtain ⟨hab₂, hrt⟩ := check_approx hright hright' hab₁ ((check_grows hl hr).1.ready hr) hr₁'
    rw [← heq] at hrt
    refine ⟨hab₂, ?_⟩
    show (op.resultTy (l.ty.settle r.ty)).Approx (op.resultTy (l'.ty.settle r'.ty))
    rw [Ty.settle_of_settled hls]
    exact op.approx_resultTy (hlt.settle hrt)
  | .call callee arguments _, w, a, b, a', b', te, ue, h, h', hab, hr, hr' => by
    obtain ⟨c, ps, r, a₁, es, a₂, root?, hc, -, hes, hroot, rfl⟩ := check_call_eq_some.mp h
    obtain ⟨c', ps', r', b₁, es', b₂, root', hc', -, hes', hroot', rfl⟩ := check_call_eq_some.mp h'
    obtain ⟨hab₁, hty⟩ := checkCallee_approx hc hc' hab
    cases hty
    obtain ⟨hg, -⟩ := callee_known hr (fun _ _ _ _ hp => checkProcedure_grows hp hr.globals) hc
    obtain ⟨hg', -⟩ := callee_known hr' (fun _ _ _ _ hp => checkProcedure_grows hp hr.globals) hc'
    have hab₂ := checkArguments_approx hes hes' hab₁ (hg.ready hr) (hg'.ready hr')
    exact ⟨hab₂.of_rootFor hroot hroot', .refl _⟩
  | .branch condition thenArm elseArm? span, w, a, b, a', b', te, ue, h, h', hab, hr, hr' => by
    obtain ⟨c, t, f, a₁, a₂, hc, -, ht, hf, -, rfl⟩ := check_branch_eq_some.mp h
    obtain ⟨c', t', f', b₁, b₂, hc', -, ht', hf', hagree, rfl⟩ := check_branch_eq_some.mp h'
    have hr₁ := (check_grows hc hr).1.ready hr
    have hr₂ := (check_grows ht hr₁).1.ready hr₁
    obtain ⟨-, -, hr₁'⟩ := check_frames hc' hr'
    obtain ⟨-, hts, hr₂'⟩ := check_frames ht' hr₁'
    obtain ⟨-, hfs, -⟩ := check_frames hf' hr₂'
    have heq := (Ty.agrees_iff_of_settled hts hfs).mp hagree
    obtain ⟨hab₁, -⟩ := check_approx hc hc' hab hr hr'
    obtain ⟨hab₂, htt⟩ := check_approx ht ht' hab₁ hr₁ hr₁'
    obtain ⟨hab₃, hft⟩ : a'.Approx b' ∧ f.ty.Approx f'.ty := by
      cases elseArm? with
      | some elseArm => exact check_approx hf hf' hab₂ hr₂ hr₂'
      | none =>
        obtain ⟨rfl, rfl⟩ := check_unit_eq_some.mp hf
        obtain ⟨rfl, rfl⟩ := check_unit_eq_some.mp hf'
        exact ⟨hab₂, .refl _⟩
    rw [← heq] at hft
    refine ⟨hab₃, ?_⟩
    show (t.ty.settle f.ty).Approx (t'.ty.settle f'.ty)
    rw [Ty.settle_of_settled hts]
    exact htt.settle hft
  | .letIn declarations body _, w, a, b, a', b', te, ue, h, h', hab, hr, hr' => by
    obtain ⟨ds, a₁, x, a₂, a₃, root?, hds, hx, hroot, rfl, rfl⟩ := check_let_eq_some.mp h
    obtain ⟨ds', b₁, x', b₂, b₃, root', hds', hx', hroot', rfl, rfl⟩ := check_let_eq_some.mp h'
    obtain ⟨frames, slots, next⟩ := b
    obtain rfl : a.next = next := hab.next
    obtain ⟨hab₁, hr₁, hr₁'⟩ := checkDeclarations_approx hds hds' hab.openLet hr.openLet
      hr'.openLet rfl rfl rfl
    obtain ⟨hab₂, hty⟩ := check_approx hx hx' hab₁ hr₁ hr₁'
    obtain ⟨hframes, hnext⟩ := hab₂.of_rootFor hroot hroot'
    refine ⟨⟨?_, hnext⟩, hty⟩
    simpa only [List.drop_one] using List.forall₂_drop 1 hframes
  | .procedure literal, w, a, b, a', b', te, ue, h, h', hab, hr, hr' =>
    absurd h check_procedure_ne_some
  | .block body _, w, a, b, a', b', te, ue, h, h', hab, hr, hr' => by
    obtain ⟨es, hes, rfl⟩ := check_block_eq_some.mp h
    obtain ⟨es', hes', rfl⟩ := check_block_eq_some.mp h'
    obtain ⟨hab₁, htys⟩ := checkAll_approx hes hes' hab hr hr'
    exact ⟨hab₁, approx_last htys⟩

theorem checkAll_approx : ∀ {es : List Expr} {w : Outside} {a b a' b' : Activation}
    {tes ues : List Typed.Expr}, checkAll w es a = some (tes, a') →
      checkAll w es b = some (ues, b') → a.Approx b → Ready True w a → Ready False w b →
      a'.Approx b' ∧ List.Forall₂ (fun t u => t.ty.Approx u.ty) tes ues
  | [], w, a, b, a', b', tes, ues, h, h', hab, hr, hr' => by
    obtain ⟨rfl, rfl⟩ := checkAll_nil_eq_some.mp h
    obtain ⟨rfl, rfl⟩ := checkAll_nil_eq_some.mp h'
    exact ⟨hab, .nil⟩
  | e :: more, w, a, b, a', b', tes, ues, h, h', hab, hr, hr' => by
    obtain ⟨te, a₁, rest, he, hm, rfl⟩ := checkAll_cons_eq_some.mp h
    obtain ⟨ue, b₁, rest', he', hm', rfl⟩ := checkAll_cons_eq_some.mp h'
    obtain ⟨hab₁, hty⟩ := check_approx he he' hab hr hr'
    obtain ⟨-, -, hr₁'⟩ := check_frames he' hr'
    obtain ⟨hab₂, htys⟩ := checkAll_approx hm hm' hab₁ ((check_grows he hr).1.ready hr) hr₁'
    exact ⟨hab₂, .cons hty htys⟩

theorem checkArguments_approx : ∀ {es : List Expr} {tys : List Ty} {w : Outside}
    {a b a' b' : Activation} {tes ues : List Typed.Expr},
    checkArguments w es tys a = some (tes, a') → checkArguments w es tys b = some (ues, b') →
      a.Approx b → Ready True w a → Ready False w b → a'.Approx b'
  | [], tys, w, a, b, a', b', tes, ues, h, h', hab, hr, hr' => by
    obtain ⟨rfl, rfl⟩ := checkArguments_nil_eq_some.mp h
    obtain ⟨rfl, rfl⟩ := checkArguments_nil_eq_some.mp h'
    exact hab
  | e :: more, [], w, a, b, a', b', tes, ues, h, h', hab, hr, hr' => by
    simp only [checkArguments, pure_eq_some] at h h'
    rw [← h.2, ← h'.2]
    exact hab
  | e :: more, ty :: tys, w, a, b, a', b', tes, ues, h, h', hab, hr, hr' => by
    obtain ⟨te, a₁, rest, he, -, hm, rfl⟩ := checkArguments_cons_eq_some.mp h
    obtain ⟨ue, b₁, rest', he', -, hm', rfl⟩ := checkArguments_cons_eq_some.mp h'
    obtain ⟨hab₁, -⟩ := check_approx he he' hab hr hr'
    obtain ⟨-, -, hr₁'⟩ := check_frames he' hr'
    exact checkArguments_approx hm hm' hab₁ ((check_grows he hr).1.ready hr) hr₁'

theorem checkDeclarations_approx : ∀ {ds : List (Declaration Expr)} {w : Outside}
    {a b a' b' : Activation} {tds uds : List (String × Typed.Expr)} {f g : Frame}
    {fs gs : List Frame} {scope : Nat}, checkDeclarations w scope ds a = some (tds, a') →
      checkDeclarations w scope ds b = some (uds, b') → a.Approx b → Ready True w a →
      Ready False w b → a.frames = f :: fs → b.frames = g :: gs → f.scope = scope →
      a'.Approx b' ∧ Ready True w a' ∧ Ready False w b'
  | [], w, a, b, a', b', tds, uds, f, g, fs, gs, _, h, h', hab, hr, hr', hf, hg, _ => by
    obtain ⟨rfl, rfl⟩ := checkDeclarations_nil_eq_some.mp h
    obtain ⟨rfl, rfl⟩ := checkDeclarations_nil_eq_some.mp h'
    exact ⟨hab, hr, hr'⟩
  | d :: more, w, a, b, a', b', tds, uds, f, g, fs, gs, _, h, h', hab, hr, hr', hf, hg, rfl => by
    obtain ⟨x, a₁, rest, hx, -, hm, rfl⟩ := checkDeclarations_cons_eq_some.mp h
    obtain ⟨x', b₁, rest', hx', -, hm', rfl⟩ := checkDeclarations_cons_eq_some.mp h'
    obtain ⟨hab₁, hty⟩ := check_approx hx hx' hab hr hr'
    obtain ⟨hgrows, hk⟩ := check_grows hx hr
    obtain ⟨hgrows', hk'⟩ := check_grows hx' hr'
    have hscope : f.scope = g.scope := by
      have hframes := hab.frames
      rw [hf, hg] at hframes
      exact (List.forall₂_cons.mp hframes).1.scope
    have hd := hgrows.declares hr hf d.name hk
    have hd' := hgrows'.declares hr' hg d.name hk'
    rw [← hscope] at hd'
    obtain ⟨f₁, fs₁, hf₁, hs₁⟩ := hd.frames_eq hf
    obtain ⟨g₁, gs₁, hg₁, -⟩ := hd'.frames_eq hg
    exact checkDeclarations_approx hm hm' ⟨approx_define hab₁.frames _ _ hty, hab₁.next⟩
      (hd.ready hr) (hd'.ready hr') hf₁ hg₁ hs₁

end

end Lexical

end RootedC
