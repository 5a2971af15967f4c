import RootedC.Proofs.Typing.Filling

/-!
Typed programs as a check leaves them. Every node has the type that its parts give it, every name
is resolved to the frame it is found in, scopes are numbered in the order of the text and root slots
in the order in which the values come about. Checking gives such programs whether or not it had to
find the types of parameters itself.
-/
namespace RootedC.Lexical

/-- The next scope and the next root slot of the activation. -/
structure Place where
  scope : Nat
  slot : Nat

/-- The place that a pass has reached. -/
def Activation.place (a : Activation) : Place := ⟨a.next, a.slots⟩

/-- The place behind a value that may need a root slot. -/
def Place.Roots (p : Place) (ty : Ty) (root? : Option Nat) (q : Place) : Prop :=
  Rooted ty root? p.slot q.slot ∧ q.scope = p.scope

/-- What a value name stands for. -/
def NameFits (G : Bindings Ty) (fs : List Frame) (ty : Ty) (name : String) (level : Nat) :
    Typed.Origin → Prop
  | .lexical scope => Frame.find name 0 fs = some ⟨ty, level, scope⟩
  | .global => Frame.find name 0 fs = none ∧ G.get? name = some ty
  | .builtin => False

mutual

/-- An expression in some frames, from one place to another. -/
def Fits (G : Bindings Ty) (fs : List Frame) : Typed.Expr → Place → Place → Prop
  | .integer i _, p, q => i.ty = .i32 ∧ i.root? = none ∧ q = p
  | .boolean i _, p, q => i.ty = .bool ∧ i.root? = none ∧ q = p
  | .text i raw length, p, q =>
    i.ty = .str ∧ i.root? = none ∧ length = Text.decodedLength raw ∧ q = p
  | .unit i, p, q => i.ty = .unit ∧ i.root? = none ∧ q = p
  | .name i name level origin, p, q =>
    i.ty.isProcedure = false ∧ i.root? = none ∧ NameFits G fs i.ty name level origin ∧ q = p
  | .unary i op x, p, q => i.ty = op.ty ∧ i.root? = none ∧ x.ty = op.ty ∧ Fits G fs x p q
  | .binary i op l r, p, q =>
    i.ty = op.resultTy l.ty ∧ i.root? = none ∧ r.ty = l.ty ∧ op.worksOn l.ty = true ∧
      ∃ m, Fits G fs l p m ∧ Fits G fs r m q
  | .call i c es, p, q =>
    ∃ tys m m', CalleeFits G fs c (.proc tys i.ty) p m ∧ ArgumentsFit G fs es tys m m' ∧
      m'.Roots i.ty i.root? q
  | .branch i c t f, p, q =>
    i.root? = none ∧ c.ty = .bool ∧ t.ty = i.ty ∧ f.ty = i.ty ∧
      ∃ m m', Fits G fs c p m ∧ Fits G fs t m m' ∧ Fits G fs f m' q
  | .letIn i scope ds x, p, q =>
    scope = p.scope ∧ i.ty = x.ty ∧
      ∃ fs' m m', DeclarationsFit G scope ds (⟨scope, []⟩ :: fs) fs' ⟨scope + 1, p.slot⟩ m ∧
        Fits G fs' x m m' ∧ m'.Roots i.ty i.root? q
  | .block i es, p, q =>
    i.ty = (es.getLast?.map (·.ty)).getD .unit ∧ i.root? = none ∧ AllFit G fs es p q

/-- Expressions one after another. -/
def AllFit (G : Bindings Ty) (fs : List Frame) : List Typed.Expr → Place → Place → Prop
  | [], p, q => q = p
  | e :: more, p, q => ∃ m, Fits G fs e p m ∧ AllFit G fs more m q

/-- As many arguments as there are types, each of its type. -/
def ArgumentsFit (G : Bindings Ty) (fs : List Frame) :
    List Typed.Expr → List Ty → Place → Place → Prop
  | [], [], p, q => q = p
  | e :: more, ty :: tys, p, q =>
    e.ty = ty ∧ ∃ m, Fits G fs e p m ∧ ArgumentsFit G fs more tys m q
  | _, _, _, _ => False

/-- Declarations, each of which sees those before it. -/
def DeclarationsFit (G : Bindings Ty) (scope : Nat) :
    List (String × Typed.Expr) → List Frame → List Frame → Place → Place → Prop
  | [], fs, fs', p, q => fs' = fs ∧ q = p
  | (name, x) :: more, fs, fs', p, q =>
    ∃ m, Fits G fs x p m ∧
      DeclarationsFit G scope more (fs.map (Frame.define scope name x.ty)) fs' m q

/-- A callee of a type. A literal starts a new activation. -/
def CalleeFits (G : Bindings Ty) (fs : List Frame) :
    Typed.Callee Typed.Expr → Ty → Place → Place → Prop
  | .builtin name, ty, p, q =>
    Frame.find name 0 fs = none ∧ G.get? name = none ∧
      (∃ b, Builtin.find? name = some b ∧ ty = b.ty) ∧ q = p
  | .global name, ty, p, q => Frame.find name 0 fs = none ∧ G.get? name = some ty ∧ q = p
  | .literal ⟨scope, parameters, result, body, size, _⟩, ty, p, q =>
    ty = .proc (parameters.map (·.2)) result ∧ q.slot = p.slot ∧
      p.scope ≤ scope ∧ (parameters.map (·.1)).Nodup ∧
      (∀ t ∈ parameters.map (·.2), t.settled = true) ∧ result = body.ty ∧
      Fits G [.ofParameters scope parameters] body ⟨scope + 1, 0⟩ ⟨q.scope, size⟩

end

/-- A procedure whose scopes have numbers from `n` on and below `n'`. -/
structure ProcedureFits (G : Bindings Ty) (P : Typed.Procedure Typed.Expr) (n n' : Nat) :
    Prop where
  le_scope : n ≤ P.scope
  nodup : (P.parameters.map (·.1)).Nodup
  settled : ∀ t ∈ P.parameters.map (·.2), t.settled = true
  result : P.result = P.body.ty
  body : Fits G [.ofParameters P.scope P.parameters] P.body ⟨P.scope + 1, 0⟩ ⟨n', P.rootCount⟩

theorem calleeFits_literal {G : Bindings Ty} {fs : List Frame} {P : Typed.Procedure Typed.Expr}
    {ty : Ty} {p q : Place} :
    CalleeFits G fs (.literal P) ty p q ↔
      ty = P.ty ∧ q.slot = p.slot ∧ ProcedureFits G P p.scope q.scope := by
  obtain ⟨scope, parameters, result, body, size, span⟩ := P
  rw [CalleeFits]
  constructor
  · rintro ⟨hty, hslot, h₁, h₂, h₃, h₄, h₅⟩
    exact ⟨hty, hslot, h₁, h₂, h₃, h₄, h₅⟩
  · rintro ⟨hty, hslot, h₁, h₂, h₃, h₄, h₅⟩
    exact ⟨hty, hslot, h₁, h₂, h₃, h₄, h₅⟩

section Passes
variable {w : Outside}

theorem place_roots {a a' : Activation} {ty : Ty} {root? : Option Nat}
    (h : Pass.rootFor ty a = some (root?, a')) : a.place.Roots ty root? a'.place := by
  obtain ⟨hr, ha⟩ := rootFor_eq_some.mp h
  exact ⟨hr, by rw [ha]; rfl⟩

/-- Where there are no holes a pass over an expression leaves the frames as they are. -/
theorem check_frames {e : Expr} {a a' : Activation} {te : Typed.Expr}
    (h : check w e a = some (te, a')) (hr : Ready False w a) :
    a'.frames = a.frames ∧ te.ty.settled = true ∧ Ready False w a' := by
  obtain ⟨hg, ht⟩ := check_grows h hr
  exact ⟨hg.frames.eq_of_settled hr.known, ht.settled, hg.ready hr⟩

theorem fillHole_of_settled {op : UnaryOp} {x y : Typed.Expr} {a a' : Activation}
    (h : Pass.fillHole op.ty x a = some (y, a')) (hx : x.ty.settled = true) : y = x ∧ a' = a := by
  rcases fillHole_eq_some.mp h with ⟨_, _, _, _, _, rfl, -, -⟩ | ⟨-, rfl, rfl⟩
  · simp [Typed.Expr.ty, Typed.Expr.info, Ty.settled] at hx
  · exact ⟨rfl, rfl⟩

theorem callee_fits {callee : Expr} {a a' : Activation} {c : Typed.Callee Typed.Expr} {ty : Ty}
    (hliteral : ∀ literal P n, callee = .procedure literal →
      checkProcedure (w.enter a.frames) a.next literal = some (P, n) →
      ProcedureFits w.globals P a.next n)
    (h : checkCallee w callee a = some ((c, ty), a')) :
    CalleeFits w.globals a.frames c ty a.place a'.place := by
  rcases checkCallee_eq_some.mp h with ⟨literal, P, hl, rfl, rfl, hp, ha⟩ | ⟨name, s, -, hn⟩
  · refine calleeFits_literal.mpr ⟨rfl, ?_, hliteral literal P _ hl hp⟩
    rw [ha]
    rfl
  · obtain ⟨rfl, hf, -, ⟨hg, -, rfl⟩ | ⟨hg, b, hb, rfl, rfl⟩⟩ := checkCalleeName_eq_some.mp hn
    · rw [CalleeFits]
      exact ⟨hf, hg, rfl⟩
    · rw [CalleeFits]
      exact ⟨hf, hg, ⟨b, hb, rfl⟩, rfl⟩

mutual

theorem check_fits : ∀ {e : Expr} {w : Outside} {a a' : Activation} {te : Typed.Expr},
    check w e a = some (te, a') → Ready False w a →
      Fits w.globals a.frames te a.place a'.place
  | .number _ _, w, a, a', te, h, hr => by
    obtain ⟨rfl, rfl⟩ := check_number_eq_some.mp h
    rw [Fits]
    exact ⟨rfl, rfl, rfl⟩
  | .text _ _, w, a, a', te, h, hr => by
    obtain ⟨rfl, rfl⟩ := check_text_eq_some.mp h
    rw [Fits]
    exact ⟨rfl, rfl, rfl, rfl⟩
  | .boolean _ _, w, a, a', te, h, hr => by
    obtain ⟨rfl, rfl⟩ := check_boolean_eq_some.mp h
    rw [Fits]
    exact ⟨rfl, rfl, rfl⟩
  | .unit _, w, a, a', te, h, hr => by
    obtain ⟨rfl, rfl⟩ := check_unit_eq_some.mp h
    rw [Fits]
    exact ⟨rfl, rfl, rfl⟩
  | .name _ _, w, a, a', te, h, hr => by
    rw [check] at h
    obtain ⟨rfl, ⟨r, hf, hp, rfl⟩ | ⟨hf, -, ty, hg, hp, rfl⟩⟩ := checkName_eq_some.mp h
    · rw [Fits]
      exact ⟨hp, rfl, hf, rfl⟩
    · rw [Fits]
      exact ⟨hp, rfl, ⟨hf, hg⟩, rfl⟩
  | .unary _ operand _, w, a, a', te, h, hr => by
    obtain ⟨op, x, a₁, y, -, hx, hfill, hty, rfl⟩ := check_unary_eq_some.mp h
    obtain ⟨-, hs, -⟩ := check_frames hx hr
    obtain ⟨rfl, rfl⟩ := fillHole_of_settled hfill hs
    rw [Fits]
    exact ⟨rfl, rfl, hty, check_fits hx hr⟩
  | .binary left _ right _, w, a, a', te, h, hr => by
    obtain ⟨op, l, r, a₁, -, hl, hright, hagree, hop, rfl⟩ := check_binary_eq_some.mp h
    obtain ⟨hf, hls, hr₁⟩ := check_frames hl hr
    obtain ⟨-, hrs, -⟩ := check_frames hright hr₁
    have heq := (Ty.agrees_iff_of_settled hls hrs).mp hagree
    rw [Ty.settle_of_settled hls] at hop ⊢
    rw [Ty.isHole_eq_false_of_settled hls, Bool.false_or] at hop
    have hfits := check_fits hright hr₁
    rw [hf] at hfits
    rw [Fits]
    exact ⟨rfl, rfl, heq.symm, hop, a₁.place, check_fits hl hr, hfits⟩
  | .call callee arguments _, w, a, a', te, h, hr => by
    obtain ⟨c, ps, r, a₁, es, a₂, root?, hc, hlen, hes, hroot, rfl⟩ := check_call_eq_some.mp h
    have hcallee : CalleeFits w.globals a.frames c (.proc ps r) a.place a₁.place := by
      cases callee with
      | procedure literal =>
        refine callee_fits (fun l P n hl hp => ?_) hc
        cases hl
        have hfits := checkProcedure_fits hp hr.globals
        exact hfits
      | _ => exact callee_fits (fun _ _ _ hl _ => by cases hl) hc
    obtain ⟨hg, hs⟩ := callee_known hr (fun _ _ _ _ hp => checkProcedure_grows hp hr.globals) hc
    have hf := hg.frames.eq_of_settled hr.known
    have harguments := checkArguments_fits hes (hg.ready hr) (Ty.settled_proc.mp hs).1 hlen
    rw [hf] at harguments
    rw [Fits]
    exact ⟨ps, _, _, hcallee, harguments, place_roots hroot⟩
  | .branch condition thenArm elseArm? _, w, a, a', te, h, hr => by
    obtain ⟨c, t, f, a₁, a₂, hc, hbool, ht, helse, hagree, rfl⟩ := check_branch_eq_some.mp h
    obtain ⟨hf₁, hcs, hr₁⟩ := check_frames hc hr
    obtain ⟨hf₂, hts, hr₂⟩ := check_frames ht hr₁
    obtain ⟨-, hfs, -⟩ := check_frames helse hr₂
    have heq := (Ty.agrees_iff_of_settled hts hfs).mp hagree
    have hfits₁ := check_fits ht hr₁
    have hfits₂ : Fits w.globals a₂.frames f a₂.place a'.place := by
      cases elseArm? with
      | some elseArm => exact check_fits helse hr₂
      | none =>
        obtain ⟨rfl, rfl⟩ := check_unit_eq_some.mp helse
        rw [Fits]
        exact ⟨rfl, rfl, rfl⟩
    rw [hf₂, hf₁] at hfits₂
    rw [hf₁] at hfits₁
    rw [Fits, Ty.settle_of_settled hts]
    exact ⟨rfl, ((Ty.agrees_iff_of_settled rfl hcs).mp hbool).symm, rfl, heq.symm, _, _,
      check_fits hc hr, hfits₁, hfits₂⟩
  | .letIn declarations body _, w, a, a', te, h, hr => by
    obtain ⟨ds, a₁, x, a₂, a₃, root?, hds, hx, hroot, rfl, rfl⟩ := check_let_eq_some.mp h
    have hd := checkDeclarations_grows hds hr.openLet rfl rfl
    have hr₁ := hd.ready hr.openLet
    have hplace := place_roots hroot
    rw [Fits]
    exact ⟨rfl, rfl, a₁.frames, _, _, checkDeclarations_fits hds hr.openLet rfl rfl,
      check_fits hx hr₁, hplace⟩
  | .procedure literal, w, a, a', te, h, hr => absurd h check_procedure_ne_some
  | .block body _, w, a, a', te, h, hr => by
    obtain ⟨es, hes, rfl⟩ := check_block_eq_some.mp h
    rw [Fits]
    exact ⟨rfl, rfl, checkAll_fits hes hr⟩

theorem checkAll_fits : ∀ {es : List Expr} {w : Outside} {a a' : Activation}
    {tes : List Typed.Expr}, checkAll w es a = some (tes, a') → Ready False w a →
      AllFit w.globals a.frames tes a.place a'.place
  | [], w, a, a', tes, h, hr => by
    obtain ⟨rfl, rfl⟩ := checkAll_nil_eq_some.mp h
    rw [AllFit]
  | e :: more, w, a, a', tes, h, hr => by
    obtain ⟨te, a₁, rest, he, hm, rfl⟩ := checkAll_cons_eq_some.mp h
    obtain ⟨hf, -, hr₁⟩ := check_frames he hr
    have hfits := checkAll_fits hm hr₁
    rw [hf] at hfits
    rw [AllFit]
    exact ⟨a₁.place, check_fits he hr, hfits⟩

theorem checkArguments_fits : ∀ {es : List Expr} {w : Outside} {tys : List Ty}
    {a a' : Activation} {tes : List Typed.Expr}, checkArguments w es tys a = some (tes, a') →
      Ready False w a → (∀ t ∈ tys, t.settled = true) → es.length = tys.length →
      ArgumentsFit w.globals a.frames tes tys a.place a'.place
  | [], w, tys, a, a', tes, h, hr, hs, hl => by
    obtain ⟨rfl, rfl⟩ := checkArguments_nil_eq_some.mp h
    have htys : tys = [] := List.length_eq_zero_iff.mp hl.symm
    rw [htys, ArgumentsFit]
  | e :: more, w, [], a, a', tes, h, hr, hs, hl => by simp at hl
  | e :: more, w, ty :: tys, a, a', tes, h, hr, hs, hl => by
    obtain ⟨te, a₁, rest, he, hagree, hm, rfl⟩ := checkArguments_cons_eq_some.mp h
    obtain ⟨hf, hts, hr₁⟩ := check_frames he hr
    obtain ⟨hs₁, hs₂⟩ := List.forall_mem_cons.mp hs
    have hfits := checkArguments_fits hm hr₁ hs₂ (by simpa using hl)
    rw [hf] at hfits
    rw [ArgumentsFit]
    exact ⟨((Ty.agrees_iff_of_settled hs₁ hts).mp hagree).symm, a₁.place, check_fits he hr, hfits⟩

theorem checkDeclarations_fits : ∀ {ds : List (Declaration Expr)} {w : Outside}
    {a a' : Activation} {tds : List (String × Typed.Expr)} {f : Frame} {fs : List Frame}
    {scope : Nat}, checkDeclarations w scope ds a = some (tds, a') → Ready False w a →
      a.frames = f :: fs → f.scope = scope →
      DeclarationsFit w.globals scope tds a.frames a'.frames a.place a'.place
  | [], w, a, a', tds, f, fs, _, h, hr, hf, _ => by
    obtain ⟨rfl, rfl⟩ := checkDeclarations_nil_eq_some.mp h
    rw [DeclarationsFit]
    exact ⟨rfl, rfl⟩
  | d :: more, w, a, a', tds, f, fs, _, h, hr, hf, rfl => by
    obtain ⟨x, a₁, rest, hx, -, hm, rfl⟩ := checkDeclarations_cons_eq_some.mp h
    obtain ⟨hg, ht⟩ := check_grows hx hr
    have hd := hg.declares hr hf d.name ht
    obtain ⟨f', fs', hf', hs⟩ := hd.frames_eq hf
    have hfits := checkDeclarations_fits hm (hd.ready hr) hf' hs
    rw [hg.frames.eq_of_settled hr.known] at hfits
    rw [DeclarationsFit]
    exact ⟨a₁.place, check_fits hx hr, hfits⟩

theorem checkProcedure_fits : ∀ {literal : Procedure Expr} {w : Outside} {n n' : Nat}
    {P : Typed.Procedure Typed.Expr}, checkProcedure w n literal = some (P, n') →
      (∀ x t, w.globals.get? x = some t → t.settled = true) → ProcedureFits w.globals P n n'
  | ⟨parameters, result?, body, span⟩, w, n, n', P, h, hg => by
    obtain ⟨hle, hnames, hnodup, hs, hready, -, hresult, -, he⟩ := checkProcedure_last h hg
    exact ⟨hle, hnames ▸ hnodup, hs, hresult, check_fits he hready⟩

end

end Passes

section Slots
variable {G : Bindings Ty}

theorem Place.Roots.slot_le {p q : Place} {ty : Ty} {root? : Option Nat} (h : p.Roots ty root? q) :
    p.slot ≤ q.slot := by
  have hr := h.1
  unfold Rooted at hr
  split at hr <;> omega

theorem Place.Roots.of_none {p q : Place} {ty : Ty} (h : p.Roots ty none q) :
    ty.mayBeHeap = false ∧ q = p := by
  obtain ⟨hr, hs⟩ := h
  unfold Rooted at hr
  split at hr
  · cases hr.1
  · exact ⟨Bool.eq_false_iff.mpr ‹_›, by cases p; cases q; simp_all⟩

theorem Place.Roots.of_some {p q : Place} {ty : Ty} {slot : Nat} (h : p.Roots ty (some slot) q) :
    ty.mayBeHeap = true ∧ slot = p.slot ∧ q = ⟨p.scope, p.slot + 1⟩ := by
  obtain ⟨hr, hs⟩ := h
  unfold Rooted at hr
  split at hr
  · exact ⟨‹_›, Option.some.inj hr.1, by cases q; simp_all⟩
  · cases hr.1

theorem CalleeFits.slot_eq {c : Typed.Callee Typed.Expr} {fs : List Frame} {ty : Ty} {p q : Place}
    (h : CalleeFits G fs c ty p q) : q.slot = p.slot := by
  cases c with
  | builtin name =>
    rw [CalleeFits] at h
    rw [h.2.2.2]
  | global name =>
    rw [CalleeFits] at h
    rw [h.2.2]
  | literal P => exact (calleeFits_literal.mp h).2.1

mutual

/-- Root slots are handed out in order. -/
theorem Fits.slot_le : ∀ {e : Typed.Expr} {fs : List Frame} {p q : Place}, Fits G fs e p q →
    p.slot ≤ q.slot
  | .integer _ _, fs, p, q, h => by
    exact Nat.le_of_eq (congrArg Place.slot h.2.2.symm)
  | .boolean _ _, fs, p, q, h => by
    exact Nat.le_of_eq (congrArg Place.slot h.2.2.symm)
  | .text _ _ _, fs, p, q, h => by
    exact Nat.le_of_eq (congrArg Place.slot h.2.2.2.symm)
  | .unit _, fs, p, q, h => by
    exact Nat.le_of_eq (congrArg Place.slot h.2.2.symm)
  | .name _ _ _ _, fs, p, q, h => by
    exact Nat.le_of_eq (congrArg Place.slot h.2.2.2.symm)
  | .unary _ _ x, fs, p, q, h => by
    rw [Fits] at h
    exact h.2.2.2.slot_le
  | .binary _ _ l r, fs, p, q, h => by
    rw [Fits] at h
    obtain ⟨-, -, -, -, m, hl, hr⟩ := h
    exact Nat.le_trans hl.slot_le hr.slot_le
  | .call _ _ es, fs, p, q, h => by
    rw [Fits] at h
    obtain ⟨tys, m, m', hc, ha, hroots⟩ := h
    have hle := ha.slot_le
    rw [hc.slot_eq] at hle
    exact Nat.le_trans hle hroots.slot_le
  | .branch _ c t f, fs, p, q, h => by
    rw [Fits] at h
    obtain ⟨-, -, -, -, m, m', hc, ht, hf⟩ := h
    exact Nat.le_trans (Nat.le_trans hc.slot_le ht.slot_le) hf.slot_le
  | .letIn _ scope ds x, fs, p, q, h => by
    rw [Fits] at h
    obtain ⟨-, -, fs', m, m', hd, hx, hroots⟩ := h
    exact Nat.le_trans (Nat.le_trans hd.slot_le hx.slot_le) hroots.slot_le
  | .block _ es, fs, p, q, h => by
    rw [Fits] at h
    exact h.2.2.slot_le

theorem AllFit.slot_le : ∀ {es : List Typed.Expr} {fs : List Frame} {p q : Place},
    AllFit G fs es p q → p.slot ≤ q.slot
  | [], fs, p, q, h => by
    rw [AllFit] at h
    exact Nat.le_of_eq (congrArg Place.slot h.symm)
  | e :: more, fs, p, q, h => by
    rw [AllFit] at h
    obtain ⟨m, he, hm⟩ := h
    exact Nat.le_trans he.slot_le hm.slot_le

theorem ArgumentsFit.slot_le : ∀ {es : List Typed.Expr} {fs : List Frame} {tys : List Ty}
    {p q : Place}, ArgumentsFit G fs es tys p q → p.slot ≤ q.slot
  | [], fs, [], p, q, h => by
    rw [ArgumentsFit] at h
    exact Nat.le_of_eq (congrArg Place.slot h.symm)
  | [], fs, _ :: _, p, q, h => h.elim
  | _ :: _, fs, [], p, q, h => h.elim
  | e :: more, fs, ty :: tys, p, q, h => by
    rw [ArgumentsFit] at h
    obtain ⟨-, m, he, hm⟩ := h
    exact Nat.le_trans he.slot_le hm.slot_le

theorem DeclarationsFit.slot_le : ∀ {ds : List (String × Typed.Expr)} {scope : Nat}
    {fs fs' : List Frame} {p q : Place}, DeclarationsFit G scope ds fs fs' p q → p.slot ≤ q.slot
  | [], scope, fs, fs', p, q, h => by
    rw [DeclarationsFit] at h
    exact Nat.le_of_eq (congrArg Place.slot h.2.symm)
  | (_, x) :: more, scope, fs, fs', p, q, h => by
    rw [DeclarationsFit] at h
    obtain ⟨m, hx, hm⟩ := h
    exact Nat.le_trans hx.slot_le hm.slot_le

end

theorem Place.Roots.bounds {p q : Place} {ty : Ty} {root? : Option Nat} (h : p.Roots ty root? q)
    {slot : Nat} (hs : slot ∈ root?) : p.slot ≤ slot ∧ slot < q.slot := by
  have hr := h.1
  unfold Rooted at hr
  split at hr
  · obtain ⟨rfl, hq⟩ := hr
    cases hs
    omega
  · rw [hr.1] at hs
    cases hs

/-- The slot of an expression is one of those between its places. -/
theorem Fits.root_bounds {e : Typed.Expr} {fs : List Frame} {p q : Place} (h : Fits G fs e p q)
    {slot : Nat} (hs : slot ∈ e.root?) : p.slot ≤ slot ∧ slot < q.slot := by
  cases e with
  | call i c es =>
    rw [Fits] at h
    obtain ⟨tys, m, m', hc, ha, hroots⟩ := h
    have hle := ha.slot_le
    rw [hc.slot_eq] at hle
    have hb := hroots.bounds hs
    exact ⟨Nat.le_trans hle hb.1, hb.2⟩
  | letIn i scope ds x =>
    rw [Fits] at h
    obtain ⟨-, -, fs', m, m', hd, hx, hroots⟩ := h
    have hb := hroots.bounds hs
    exact ⟨Nat.le_trans (Nat.le_trans hd.slot_le hx.slot_le) hb.1, hb.2⟩
  | unary _ _ _ | binary _ _ _ _ | branch _ _ _ _ | block _ _ =>
    rw [Fits] at h
    simp [Typed.Expr.root?, Typed.Expr.info, h] at hs
  | _ => simp [Typed.Expr.root?, Typed.Expr.info, h.2.1] at hs

theorem DeclarationsFit.root_bounds {ds : List (String × Typed.Expr)} {scope : Nat}
    {fs fs' : List Frame} {p q : Place} (h : DeclarationsFit G scope ds fs fs' p q) :
    ∀ d ∈ ds, ∀ slot ∈ d.2.root?, p.slot ≤ slot ∧ slot < q.slot := by
  induction ds generalizing fs p with
  | nil => simp
  | cons d more ih =>
    rw [DeclarationsFit] at h
    obtain ⟨m, hx, hm⟩ := h
    refine List.forall_mem_cons.mpr ⟨fun slot hs => ?_, fun d hd slot hs => ?_⟩
    · have hb := hx.root_bounds hs
      exact ⟨hb.1, Nat.lt_of_lt_of_le hb.2 hm.slot_le⟩
    · have hb := ih hm d hd slot hs
      exact ⟨Nat.le_trans hx.slot_le hb.1, hb.2⟩

end Slots

end RootedC.Lexical
