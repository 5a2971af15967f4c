import RootedC.Proofs.Typing.Reachable

/-!
Checks run inside activations. Whatever expression is checked, the scope it is checked in belongs to
a procedure, so there is a root table to take a slot from; only the values of constants are checked
outside, and they need none.
-/
namespace RootedC

namespace ScopeTree

variable {t t' : ScopeTree} {id : Nat}

/-- A scope of an activation: that of a procedure, or of a let inside such a scope. -/
inductive Active (t : ScopeTree) : Nat → Prop
  | procedure {id : Nat} {s : Scope} (h : t.get? id = some s) (hk : s.kind = .procedure) :
    Active t id
  | letIn {id parent : Nat} {s : Scope} (h : t.get? id = some s) (hk : s.kind = .letIn)
    (hp : s.parent? = some parent) (hlt : parent < id) (hactive : Active t parent) : Active t id

theorem Active.lt_size (h : t.Active id) : id < t.size := by
  cases h with
  | procedure h => exact lt_size_of_get? h
  | letIn h => exact lt_size_of_get? h

theorem Active.isSome_find_climb (h : t.Active id) :
    ∀ {n : Nat}, id < n → ((t.climb n id).find? t.isProcedure).isSome = true := by
  induction h with
  | @procedure id s h hk =>
    intro n hn
    obtain ⟨n, rfl⟩ := Nat.exists_eq_succ_of_ne_zero (by omega : n ≠ 0)
    have hid : t.isProcedure id = true := by simp [isProcedure, h, hk]
    have hmem : id ∈ t.climb (n + 1) id := by
      unfold climb
      split <;> simp
    exact List.find?_isSome.mpr ⟨id, hmem, hid⟩
  | @letIn id parent s h hk hp hlt hactive ih =>
    intro n hn
    obtain ⟨n, rfl⟩ := Nat.exists_eq_succ_of_ne_zero (by omega : n ≠ 0)
    have hparent : t.parent? id = some parent := by simp [ScopeTree.parent?, h, hp]
    obtain ⟨owner, hmem, howner⟩ := List.find?_isSome.mp (@ih n (by omega))
    refine List.find?_isSome.mpr ⟨owner, ?_, howner⟩
    simp only [climb, hparent]
    exact List.mem_cons_of_mem _ hmem

/-- A scope of an activation has somewhere to take root slots from. -/
theorem Active.exists_owner (h : t.Active id) : ∃ owner, t.slotOwner? id = some owner := by
  have hlt : id < t.size + 1 := Nat.lt_succ_of_lt h.lt_size
  obtain ⟨owner, howner⟩ := Option.isSome_iff_exists.mp (h.isSome_find_climb hlt)
  have hactivation : t.activation? id = some owner := howner
  refine ⟨owner, ?_⟩
  cases h with
  | procedure h hk => simp [slotOwner?, h, hk, hactivation]
  | letIn h hk => simp [slotOwner?, h, hk, hactivation]

/-- Activations stay where the kinds of scopes and what is around them stay. -/
theorem Active.of_kept (h : t.Active id)
    (hk : ∀ id s, t.get? id = some s →
      ∃ s', t'.get? id = some s' ∧ s'.kind = s.kind ∧ s'.parent? = s.parent?) : t'.Active id := by
  induction h with
  | procedure h hkind =>
    obtain ⟨s', hs, hkind', -⟩ := hk _ _ h
    exact .procedure hs (hkind'.trans hkind)
  | letIn h hkind hp hlt _ ih =>
    obtain ⟨s', hs, hkind', hparent⟩ := hk _ _ h
    exact .letIn hs (hkind'.trans hkind) (hparent.trans hp) hlt ih

theorem kept_of_modify {change : Scope → Scope} {owner : Nat}
    (hc : ∀ s, (change s).kind = s.kind ∧ (change s).parent? = s.parent?) (id : Nat) (s : Scope)
    (h : t.get? id = some s) :
    ∃ s', (⟨t.scopes.modify owner change⟩ : ScopeTree).get? id = some s' ∧
      s'.kind = s.kind ∧ s'.parent? = s.parent? := by
  rw [get?_modify, h]
  split
  · exact ⟨change s, rfl, hc s⟩
  · exact ⟨s, rfl, rfl, rfl⟩

end ScopeTree

namespace Context

variable {c c' : Context} {scope : Nat}

/-- No step changes the kind of a scope or what is around it. -/
theorem Step.kept (h : c.Step c') (id : Nat) (s : Scope) (hs : c.scopes.get? id = some s) :
    ∃ s', c'.scopes.get? id = some s' ∧ s'.kind = s.kind ∧ s'.parent? = s.parent? := by
  cases h with
  | declare => exact ⟨s, hs, rfl, rfl⟩
  | openScope kind => exact ⟨s, ScopeTree.get?_create _ _ hs, rfl, rfl⟩
  | define => exact ScopeTree.kept_of_modify (by exact fun _ => ⟨rfl, rfl⟩) id s hs
  | takeSlot h =>
    obtain ⟨owner, -, ht⟩ := Option.map_eq_some_iff.mp h
    cases ht
    exact ScopeTree.kept_of_modify (by exact fun _ => ⟨rfl, rfl⟩) id s hs

theorem Step.active (h : c.Step c') (ha : c.scopes.Active scope) : c'.scopes.Active scope :=
  ha.of_kept h.kept

theorem Reaches.active (h : c.Reaches c') (ha : c.scopes.Active scope) :
    c'.scopes.Active scope := by
  induction h with
  | refl => exact ha
  | tail _ hs ih => exact hs.active ih

/-- Where a scope is part of an activation. -/
def Inside (scope : Nat) (c : Context) : Prop := c.scopes.Active scope

/-- Where a scope is open, part of an activation or not. -/
def Opened (scope : Nat) (c : Context) : Prop := scope < c.scopes.size

/-- What holds on while a check goes on. -/
structure Lasting (scope : Nat) (A : Context → Prop) : Prop where
  opened : ∀ c, A c → scope < c.scopes.size
  reaches : ∀ c c', A c → c.Reaches c' → A c'

theorem lasting_inside (scope : Nat) : Lasting scope (Inside scope) :=
  ⟨fun _ h => h.lt_size, fun _ _ ha h => h.active ha⟩

theorem lasting_opened (scope : Nat) : Lasting scope (Opened scope) :=
  ⟨fun _ h => h, fun _ _ ha h => Nat.lt_of_lt_of_le ha h.size_le⟩

end Context

namespace Check

open Context

variable {α β : Type} {scope : Nat} {A : Context → Prop} {x y : Check α}

/-- A check that does not complain about a missing activation, wherever it is run. -/
def Content (x : Check α) : Prop := ∀ c d c', x c = .error d c' → d.cause ≠ .noActivation

namespace Content

theorem of_asks (h : Asks x) : Content x := by
  intro c d c' hd
  have hc := h c
  rw [hd] at hc
  exact hc.2.ne_noActivation

theorem bind {f : α → Check β} (hx : Content x) (hf : ∀ v, Content (f v)) :
    Content (x >>= f) := by
  intro c d c' h
  rcases bind_eq_error.mp h with h | ⟨v, c₁, -, h⟩
  · exact hx _ _ _ h
  · exact hf _ _ _ _ h

theorem define (id : Nat) (name : String) (ty : Ty) : Content (Check.define id name ty) := by
  intro c d c' h
  cases h

theorem defineAll (id : Nat) (ps : List (String × Ty)) : Content (Check.defineAll id ps) := by
  induction ps with
  | nil => exact of_asks (.pure _)
  | cons p more ih => exact (Content.define id p.1 p.2).bind fun _ => ih

theorem fillHole (expected : Ty) (operand : Typed.Expr) :
    Content (Check.fillHole expected operand) := by
  unfold Check.fillHole
  split
  · exact (Content.define _ _ _).bind fun _ => of_asks (.pure _)
  · exact of_asks (.pure _)

end Content

/-- A check that keeps what held before it and does not complain about a missing activation
there. -/
structure Serves (A : Context → Prop) (x : Check α) : Prop where
  stays : ∀ c, A c → A (.after (x c))
  content : ∀ c, A c → ∀ d c', x c = .error d c' → d.cause ≠ .noActivation

namespace Serves

theorem bind {f : α → Check β} (hx : Serves A x) (hf : ∀ v, Serves A (f v)) :
    Serves A (x >>= f) := by
  constructor
  · intro c hc
    have hstays := hx.stays c hc
    rw [bind_run]
    generalize x c = r at hstays
    cases r with
    | ok v c' => exact (hf v).stays c' hstays
    | error d c' => exact hstays
  · intro c hc d c' h
    have hstays := hx.stays c hc
    have hcontent := hx.content c hc
    rw [bind_run] at h
    generalize x c = r at hstays hcontent h
    cases r with
    | ok v c₁ => exact (hf v).content c₁ hstays d c' h
    | error d₁ c₁ =>
      cases h
      exact hcontent d _ rfl

theorem ite {p : Prop} [Decidable p] (hx : Serves A x) (hy : Serves A y) :
    Serves A (if p then x else y) := by
  split
  · exact hx
  · exact hy

theorem of_content (hA : Lasting scope A) (hs : Steps scope x) (hx : Content x) : Serves A x :=
  ⟨fun c hc => hA.reaches c _ hc (hs c (hA.opened c hc)), fun c _ => hx c⟩

theorem of_asks (hA : Lasting scope A) (hx : Asks x) : Serves A x :=
  of_content hA (.of_asks hx) (.of_asks hx)

/-- Inside an activation there is always a slot to hand out. -/
theorem rootFor (ty : Ty) (position : Position) :
    Serves (Inside scope) (Check.rootFor ty scope position) := by
  refine ⟨fun c hc => (lasting_inside scope).reaches c _ hc
    (Steps.rootFor ty scope position c hc.lt_size), fun c hc d c' h => ?_⟩
  obtain ⟨owner, howner⟩ := hc.exists_owner
  cases hheap : ty.mayBeHeap with
  | true => simp [Check.rootFor, hheap, ScopeTree.takeRootSlot?, howner] at h
  | false => simp [Check.rootFor, hheap, pure_run] at h

/-- A let inside an activation is part of it. -/
theorem openLet {f : Nat → Check β} (hs : ∀ inner, scope < inner → Steps inner (f inner))
    (hf : ∀ inner, Serves (Inside inner) (f inner)) :
    Serves (Inside scope) (Check.openScope .letIn scope >>= f) := by
  refine ⟨fun c hc => (lasting_inside scope).reaches c _ hc
    (Steps.opened .letIn hs c hc.lt_size), fun c hc d c' h => ?_⟩
  have hinner : Inside c.scopes.size
      { c with scopes := (c.scopes.create .letIn (some scope)).2 } :=
    .letIn (ScopeTree.get?_create_self _ _ _) rfl rfl hc.lt_size
      (hc.of_kept fun id s hs => ⟨s, ScopeTree.get?_create _ _ hs, rfl, rfl⟩)
  exact (hf c.scopes.size).content _ hinner d c' h

/-- A procedure starts an activation, wherever it stands. -/
theorem openProcedure (ps : List (String × Ty)) {f : Nat → Check β}
    (hs : ∀ inner, scope < inner → Steps inner (f inner))
    (hf : ∀ inner, scope < inner → Serves (Inside inner) (f inner)) :
    Serves (Opened scope) (Check.openProcedure scope ps >>= f) := by
  refine ⟨fun c hc => (lasting_opened scope).reaches c _ hc
    (Steps.openProcedure ps hs c hc), fun c hc d c' h => ?_⟩
  have heq : Check.openProcedure scope ps >>= f =
      Check.openScope .procedure scope >>= fun inner => Check.defineAll inner ps >>= fun _ =>
        f inner := by
    simp only [Check.openProcedure, bind_assoc, pure_bind]
  rw [heq] at h
  have hinner : Inside c.scopes.size
      { c with scopes := (c.scopes.create .procedure (some scope)).2 } :=
    .procedure (ScopeTree.get?_create_self _ _ _) rfl
  have hrest : Serves (Inside c.scopes.size)
      (Check.defineAll c.scopes.size ps >>= fun _ => f c.scopes.size) :=
    (of_content (lasting_inside _) (.defineAll _ ps) (.defineAll _ ps)).bind fun _ => hf _ hc
  exact hrest.content _ hinner d c' h

/-- What holds inside an activation is enough for a check that only needs its scope to be open. -/
theorem inside {inner : Nat} (hx : Serves (Opened scope) x) (hs : Steps scope x)
    (h : scope < inner ∨ scope = inner) : Serves (Inside inner) x := by
  refine ⟨fun c hc => ?_, fun c hc => hx.content c ?_⟩
  · refine (lasting_inside inner).reaches c _ hc (hs c ?_)
    have hlt := hc.lt_size
    omega
  · have hlt := hc.lt_size
    show scope < c.scopes.size
    omega

/-- A procedure brings its own activation with it, so its parent need only be open. -/
theorem procedure {parent : Nat} (literal : Procedure Expr)
    (hbody : ∀ inner, Serves (Inside inner) (literal.body.check inner)) :
    Serves (Opened parent) (literal.check parent) := by
  have hA := lasting_opened parent
  have hclose (tys : List Ty) (inner : Nat) (e : Typed.Expr) :=
    Asks.closeProcedure literal.parameters tys literal.result? inner e literal.span
  rw [Procedure.check]
  refine (of_asks hA (.checkDistinct _ _)).bind fun _ => ?_
  refine (of_asks hA (.lift (writtenTypes_refused _).sincere)).bind fun written => ?_
  have hagain (found : List Ty) : Steps parent
      (Check.openProcedure parent ((literal.parameters.map (·.name)).zip found) >>= fun second =>
        literal.body.check second >>= fun e =>
          Check.closeProcedure literal.parameters found literal.result? second e literal.span) :=
    .openProcedure _ fun second _ =>
      (literal.body.check_steps second).bind fun e => .of_asks (hclose _ _ e)
  refine openProcedure _ (fun first hlt => ?_) fun first hlt => ?_
  · exact (literal.body.check_steps first).bind fun e => Steps.get.bind fun c =>
      .ite ((hagain _).mono hlt) (.of_asks (hclose _ _ e))
  · refine (hbody first).bind fun e => (of_asks (lasting_inside _) .get).bind fun c =>
      ite ?_ (of_asks (lasting_inside _) (hclose _ _ e))
    refine inside (openProcedure _ (fun second _ => ?_) fun second _ => ?_) (hagain _) (.inl hlt)
    · exact (literal.body.check_steps second).bind fun e => .of_asks (hclose _ _ e)
    · exact (hbody second).bind fun e => of_asks (lasting_inside _) (hclose _ _ e)

theorem closed : Closed fun scope _ x => Steps scope x ∧ Serves (Inside scope) x where
  ask h := ⟨.of_asks h, of_asks (lasting_inside _) h⟩
  bind hx hf := ⟨hx.1.bind fun v => (hf v).1, hx.2.bind fun v => (hf v).2⟩
  fill _ h := ⟨h.1.bind (.fillHole _),
    h.2.bind fun x => of_content (lasting_inside _) (.fillHole _ x) (.fillHole _ x)⟩
  root scope ty position := ⟨.rootFor ty scope position, rootFor ty position⟩
  openLet hf := by
    have hinner (inner : Nat) := hf inner fun name ty => ⟨.define inner name ty,
      of_content (lasting_inside _) (.define inner name ty) (.define inner name ty)⟩
    exact ⟨.opened _ fun inner _ => (hinner inner).1,
      openLet (fun inner _ => (hinner inner).1) fun inner => (hinner inner).2⟩
  procedure literal hbody := by
    have hserves (parent : Nat) : Serves (Opened parent) (literal.check parent) :=
      procedure literal fun inner => (hbody inner).2
    exact ⟨literal.check_steps _, (hserves _).inside (literal.check_steps _) (.inr rfl)⟩

end Serves

end Check

open Check (Serves Steps Content Asks)
open Context (Inside Opened lasting_inside lasting_opened)

theorem Expr.check_serves (e : Expr) (scope : Nat) : Serves (Inside scope) (e.check scope) :=
  (Serves.closed.check e scope).2

theorem Procedure.check_serves (literal : Procedure Expr) (parent : Nat) :
    Serves (Opened parent) (literal.check parent) :=
  .procedure literal literal.body.check_serves

namespace Item

open Check

theorem declare_content (item : Item) : Content item.declare := by
  have hnew (name : String) (start : Position) : Content (checkNew name start) :=
    .of_asks (.checkNew name start)
  have hdeclare (name : String) (ty : Ty) : Content (declareGlobal name ty) := by
    intro c d c' h
    cases h
  cases item with
  | procedure name literal span =>
    exact (hnew _ _).bind fun _ =>
      (Content.of_asks (.lift (signature_refused _ _ _))).bind fun ty => hdeclare name ty
  | constant name type? value span =>
    refine (hnew _ _).bind fun _ => ?_
    cases type? with
    | none => exact .of_asks (.fail _ trivial)
    | some t => exact (Content.of_asks (.toTy t)).bind fun ty => hdeclare name ty
  | mutable name type? value span => exact .of_asks (.fail _ trivial)
  | entry body span => exact .of_asks (.pure _)

theorem declareAll_content (items : List Item) : Content (declareAll items) := by
  induction items with
  | nil => exact .of_asks (.pure _)
  | cons item more ih => exact item.declare_content.bind fun _ => ih

/-- The value of a constant is checked outside of all activations; it needs no slot. -/
theorem checkConstant_content (name : String) (type? : Option TypeExpr) (value : Expr)
    (span : Span) : Content (checkConstant name type? value span) := by
  unfold checkConstant
  split
  · next hvalue =>
    cases type? with
    | none => exact .of_asks (.fail _ trivial)
    | some t =>
      refine (Content.of_asks (.toTy t)).bind fun ty => (Content.of_asks .get).bind fun c =>
        Content.bind ?_ fun x => .of_asks (.ite (fun _ => .pure _) fun hne => ?_)
      · obtain ⟨x, hx⟩ := Lexical.isConstantValue_iff.mp hvalue
        intro c₁ d c' h
        rw [Lexical.check_of_constantValue hx] at h
        cases h
      · exact .fail _ ⟨_, _, fun he => hne (beq_iff_eq.mpr he), rfl, rfl⟩
  · exact .of_asks (.fail _ trivial)

theorem check_content (item : Item) {c : Context} (hc : c.moduleScope < c.scopes.size)
    {d : Diagnostic} {c' : Context} (h : item.check c = .error d c') : d.cause ≠ .noActivation := by
  cases item with
  | procedure name literal span =>
    have hserves : Serves (Opened c.moduleScope)
        (literal.check c.moduleScope >>= fun P => pure (Typed.Item.procedure name P)) :=
      (literal.check_serves c.moduleScope).bind fun P => .of_asks (lasting_opened _) (.pure _)
    exact hserves.content c hc d c' h
  | constant name type? value span =>
    have hcontent : Content (checkConstant name type? value span >>= fun k =>
        pure (Typed.Item.constant k)) :=
      (checkConstant_content name type? value span).bind fun k => .of_asks (.pure _)
    exact hcontent c d c' h
  | mutable name type? value span =>
    have hcontent : Content (fail .mutableGlobal span.start : Check Typed.Item) :=
      .of_asks (.fail _ trivial)
    exact hcontent c d c' h
  | entry body span =>
    have hserves : Serves (Opened c.moduleScope) (openProcedure c.moduleScope [] >>= fun scope =>
        body.check scope >>= fun e => get >>= fun c' =>
          pure (Typed.Item.entry ⟨scope, [], e.ty, e, c'.scopes.rootCount scope, span⟩)) := by
      refine .openProcedure [] (fun scope _ => ?_) fun scope _ => ?_
      · exact (body.check_steps scope).bind fun e => Steps.get.bind fun _ => .pure _
      · exact (body.check_serves scope).bind fun e =>
          .of_asks (lasting_inside _) (Asks.get.bind fun _ => .pure _)
    simp only [check, checkEntry, bind_assoc, pure_bind] at h
    simp only [openProcedure, defineAll, bind_assoc, pure_bind] at hserves
    exact hserves.content c hc d c' h

theorem checkAll_content (items : List Item) {c : Context} (hc : c.moduleScope < c.scopes.size)
    {d : Diagnostic} {c' : Context} (h : checkAll items c = .error d c') :
    d.cause ≠ .noActivation := by
  induction items generalizing c with
  | nil => cases h
  | cons item more ih =>
    have hreaches := item.check_reaches hc
    rw [checkAll, bind_run] at h
    cases hitem : item.check c with
    | error d₁ c₁ =>
      rw [hitem] at h
      cases h
      exact item.check_content hc hitem
    | ok ti c₁ =>
      rw [hitem] at h hreaches
      have hc₁ : c₁.moduleScope < c₁.scopes.size :=
        hreaches.moduleScope_eq ▸ Nat.lt_of_lt_of_le hc hreaches.size_le
      simp only [bind_run] at h
      cases hmore : checkAll more c₁ with
      | error d₂ c₂ =>
        rw [hmore] at h
        cases h
        exact ih hc₁ hmore
      | ok tis c₂ =>
        rw [hmore] at h
        cases h

end Item

/-- No check of a module asks for a root slot outside of an activation. -/
theorem Module.cause_of_check {m : Module} {d : Diagnostic} (h : m.check = .error d) :
    d.cause ≠ .noActivation := by
  have hd := Item.declareAll_steps m.items 0 Context.initial (by decide)
  unfold check at h
  simp only [bind_run] at h
  cases hdeclare : Item.declareAll m.items Context.initial with
  | error d₁ c =>
    rw [hdeclare] at h
    cases h
    exact Item.declareAll_content m.items _ _ _ hdeclare
  | ok u c =>
    rw [hdeclare] at h hd
    have hhome : c.moduleScope < c.scopes.size := Context.Reachable.wellFormed hd |>.home
    simp only at h
    cases hcheck : Item.checkAll m.items c with
    | error d₁ c₁ =>
      rw [hcheck] at h
      cases h
      exact Item.checkAll_content m.items hhome hcheck
    | ok tis c₁ =>
      rw [hcheck] at h
      cases h

end RootedC
