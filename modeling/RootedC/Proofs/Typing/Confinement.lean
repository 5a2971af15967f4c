import Mathlib
import RootedC.Proofs.Typing.Activations
import RootedC.Proofs.Typing.Provenance

/-!
What a check may write to. A check opens scopes, binds names in those it has opened, fills holes and
takes root slots; holes and slots belong to the activation that the check runs in, so nothing else
that was there before is changed, whether the check succeeds or not.
-/
namespace RootedC

namespace ScopeTree

variable {t t' : ScopeTree} {id : Nat} {s : Scope}

/-- The activation of a scope: its own if it is a procedure's, else that of the scope around it. -/
theorem Ordered.activation?_eq (h : t.Ordered) (hs : t.get? id = some s) :
    t.activation? id = if s.kind = .procedure then some id else s.parent?.bind t.activation? := by
  obtain ⟨s', outer, hl⟩ := h.exists_linked (lt_size_of_get? hs)
  obtain rfl : s = s' := Option.some.inj (hs.symm.trans hl.1)
  rw [hl.activation?, List.find?_cons]
  by_cases hk : s.kind = .procedure
  · simp [hk]
  · simp only [hk, decide_false, if_false]
    cases outer with
    | nil =>
      have hp : s.parent? = none := hl.2.1
      rw [hp]
      rfl
    | cons p outer =>
      have hp : s.parent? = some p.1 := hl.2.1
      rw [hp, Option.bind_some, hl.2.2.2.activation?]

theorem Ordered.activation?_le (h : t.Ordered) {owner : Nat} :
    ∀ {id : Nat}, t.activation? id = some owner → id < t.size → owner ≤ id := by
  intro id
  induction id using Nat.strongRecOn with
  | _ id ih =>
    intro ha hid
    have hs : t.get? id = some t.scopes[id] := Array.getElem?_eq_getElem hid
    rw [h.activation?_eq hs] at ha
    split at ha
    · exact Nat.le_of_eq (Option.some.inj ha).symm
    · obtain ⟨p, hp, ha⟩ := Option.bind_eq_some_iff.mp ha
      have hlt := h id _ hs p hp
      exact Nat.le_of_lt (Nat.lt_of_le_of_lt (ih p hlt ha (hlt.trans hid)) hlt)

/-- Activations stay where the kinds of scopes and what is around them stay. -/
theorem Ordered.activation?_of_kept (h : t.Ordered) (h' : t'.Ordered)
    (hk : ∀ id s, t.get? id = some s →
      ∃ s', t'.get? id = some s' ∧ s'.kind = s.kind ∧ s'.parent? = s.parent?) :
    ∀ {id : Nat}, id < t.size → t'.activation? id = t.activation? id := by
  intro id
  induction id using Nat.strongRecOn with
  | _ id ih =>
    intro hid
    have hs : t.get? id = some t.scopes[id] := Array.getElem?_eq_getElem hid
    obtain ⟨s', hs', hkind, hparent⟩ := hk id _ hs
    rw [h.activation?_eq hs, h'.activation?_eq hs', hkind, hparent]
    cases hp : (t.scopes[id]).parent? with
    | none => rfl
    | some p =>
      have hlt := h id _ hs p hp
      rw [Option.bind_some, Option.bind_some, ih p hlt (hlt.trans hid)]

theorem lookup?_of_findIn {name : String} {level : Nat} {ids : List Nat} {r : BindingSite}
    (h : t.findIn name level ids = some r) : t.lookup? r.scope name = some r.ty := by
  induction ids generalizing level with
  | nil => cases h
  | cons id outer ih =>
    rw [findIn] at h
    split at h
    next ty hty =>
      cases h
      exact hty
    next => exact ih h

end ScopeTree

/-- How a scope may change: its kind and place stay, root slots are taken only if `owns`, and holes
are filled, with `i32` or `bool`, only if `fills`. -/
structure Scope.Adjusts (owns fills : Prop) (s s' : Scope) : Prop where
  kind : s'.kind = s.kind
  parent : s'.parent? = s.parent?
  slots_le : s.rootSlots ≤ s'.rootSlots
  slots : s'.rootSlots = s.rootSlots ∨ owns
  bindings : s'.bindings = s.bindings ∨ fills
  holes : ∀ x, s'.bindings.get? x = s.bindings.get? x ∨ s.bindings.get? x = some .hole ∧
    (s'.bindings.get? x = some .i32 ∨ s'.bindings.get? x = some .bool)

namespace Scope.Adjusts

variable {owns fills : Prop} {s s' s'' : Scope}

theorem refl (s : Scope) : s.Adjusts owns fills s :=
  ⟨rfl, rfl, Nat.le_refl _, .inl rfl, .inl rfl, fun _ => .inl rfl⟩

/-- A hole that is filled stays filled. -/
theorem trans (h : s.Adjusts owns fills s') (h' : s'.Adjusts owns fills s'') :
    s.Adjusts owns fills s'' where
  kind := h'.kind.trans h.kind
  parent := h'.parent.trans h.parent
  slots_le := h.slots_le.trans h'.slots_le
  slots := by
    rcases h'.slots with he | ho
    · exact h.slots.imp_left he.trans
    · exact .inr ho
  bindings := by
    rcases h'.bindings with he | hf
    · exact h.bindings.imp_left he.trans
    · exact .inr hf
  holes x := by
    rcases h'.holes x with he | ⟨hhole, hfilled⟩
    · rw [he]
      exact h.holes x
    · rcases h.holes x with he | ⟨-, hi | hb⟩
      · exact .inr ⟨he ▸ hhole, hfilled⟩
      · rw [hi] at hhole
        cases hhole
      · rw [hb] at hhole
        cases hhole

theorem imp {owns' fills' : Prop} (h : s.Adjusts owns fills s') (ho : owns → owns')
    (hf : fills → fills') : s.Adjusts owns' fills' s' :=
  ⟨h.kind, h.parent, h.slots_le, h.slots.imp_right ho, h.bindings.imp_right hf, h.holes⟩

/-- Where nothing is owned and nothing may be filled, nothing changes. -/
theorem eq (h : s.Adjusts owns fills s') (ho : ¬ owns) (hf : ¬ fills) : s' = s := by
  obtain ⟨kind, bindings, rootSlots, parent?⟩ := s
  obtain ⟨kind', bindings', rootSlots', parent?'⟩ := s'
  have hslots := h.slots.resolve_right ho
  have hbindings := h.bindings.resolve_right hf
  have hkind := h.kind
  have hparent := h.parent
  simp only at hslots hbindings hkind hparent
  rw [hslots, hbindings, hkind, hparent]

end Scope.Adjusts

namespace Context

/-- One change by a check that began with `n` open scopes and writes for the activations `own`. -/
inductive Touch (n : Nat) (own : Option Nat → Prop) (c : Context) : Context → Prop
  | openScope (kind : ScopeKind) {parent : Nat} (h : parent < c.scopes.size) :
    Touch n own c { c with scopes := (c.scopes.create kind (some parent)).2 }
  | define {id : Nat} (h : n ≤ id) (name : String) (ty : Ty) :
    Touch n own c { c with scopes := c.scopes.define id name ty }
  | fill {id : Nat} {name : String} {ty : Ty} (h : c.scopes.lookup? id name = some .hole)
    (hty : ty = .i32 ∨ ty = .bool) (ho : own (c.scopes.activation? id)) :
    Touch n own c { c with scopes := c.scopes.define id name ty }
  | takeSlot {scope slot : Nat} {t : ScopeTree}
    (h : c.scopes.takeRootSlot? scope = some (slot, t)) (ho : own (c.scopes.activation? scope)) :
    Touch n own c { c with scopes := t }

def Touches (n : Nat) (own : Option Nat → Prop) : Context → Context → Prop :=
  Relation.ReflTransGen (Touch n own)

variable {n : Nat} {own : Option Nat → Prop} {c c' : Context}

theorem Touch.step (h : c.Touch n own c') : c.Step c' := by
  cases h with
  | openScope kind h => exact .openScope kind h
  | define _ name ty => exact .define _ name ty
  | fill => exact .define _ _ _
  | takeSlot h => exact .takeSlot h

theorem Touches.reaches (h : c.Touches n own c') : c.Reaches c' :=
  Relation.ReflTransGen.mono (fun _ _ ht => Touch.step ht) _ _ h

theorem Touch.globals_eq (h : c.Touch n own c') : c'.globals = c.globals := by
  cases h <;> rfl

theorem Touches.globals_eq (h : c.Touches n own c') : c'.globals = c.globals := by
  induction h with
  | refl => rfl
  | tail _ ht ih => rw [ht.globals_eq, ih]

theorem Reaches.ordered (h : c.Reaches c') (hc : c.scopes.Ordered) : c'.scopes.Ordered := by
  induction h with
  | refl => exact hc
  | tail _ hs ih => exact hs.ordered ih

theorem Reaches.activation?_eq (h : c.Reaches c') (hc : c.scopes.Ordered) {id : Nat}
    (hid : id < c.scopes.size) : c'.scopes.activation? id = c.scopes.activation? id := by
  induction h with
  | refl => rfl
  | tail hr hs ih =>
    have ho := Reaches.ordered hr hc
    rw [← ih]
    exact ho.activation?_of_kept (hs.ordered ho) hs.kept
      (Nat.lt_of_lt_of_le hid (Reaches.size_le hr))

end Context

theorem ScopeTree.get?_modify_of_get? {t : ScopeTree} {id owner : Nat} {s : Scope}
    (change : Scope → Scope) (hs : t.get? id = some s) :
    (⟨t.scopes.modify owner change⟩ : ScopeTree).get? id =
      some (if owner = id then change s else s) := by
  rw [get?_modify, hs]
  split <;> rfl

/-- A root slot is the next one of the activation that the scope belongs to. -/
theorem ScopeTree.takeRootSlot?_eq_some {t u : ScopeTree} {scope slot : Nat}
    (h : t.takeRootSlot? scope = some (slot, u)) : ∃ owner, t.activation? scope = some owner ∧
      slot = t.rootSlotsAt owner ∧
      u = ⟨t.scopes.modify owner fun s => { s with rootSlots := s.rootSlots + 1 }⟩ := by
  obtain ⟨owner, ho, hu⟩ := Option.map_eq_some_iff.mp h
  obtain ⟨rfl, rfl⟩ := Prod.mk.inj hu
  refine ⟨owner, ?_, rfl, rfl⟩
  unfold slotOwner? at ho
  split at ho
  · exact ho
  · exact ho
  · cases ho

/-- Binding a name that is a hole. -/
theorem Scope.Adjusts.fill {owns fills : Prop} {s : Scope} {name : String} {ty : Ty}
    (h : s.bindings.get? name = some .hole) (hty : ty = .i32 ∨ ty = .bool) (hf : fills) :
    s.Adjusts owns fills { s with bindings := s.bindings.bind name ty } where
  kind := rfl
  parent := rfl
  slots_le := Nat.le_refl _
  slots := .inl rfl
  bindings := .inr hf
  holes x := by
    by_cases hx : x = name
    · subst hx
      rw [Bindings.get?_bind_self]
      exact .inr ⟨h, hty.imp (congrArg some) (congrArg some)⟩
    · exact .inl (Bindings.get?_bind_of_ne _ _ hx)

namespace Context

variable {n : Nat} {own : Option Nat → Prop} {c c' : Context}

/-- What one change does to a scope that was open at the beginning. -/
theorem Touch.adjusts (h : c.Touch n own c') {id : Nat} {s : Scope} (hid : id < n)
    (hs : c.scopes.get? id = some s) : ∃ s', c'.scopes.get? id = some s' ∧
      s.Adjusts (own (some id)) (own (c.scopes.activation? id)) s' := by
  cases h with
  | openScope kind h => exact ⟨s, ScopeTree.get?_create _ _ hs, .refl s⟩
  | @define id' h name ty =>
    refine ⟨s, ?_, .refl s⟩
    have hne : id' ≠ id := by omega
    exact (ScopeTree.get?_modify_of_get? _ hs).trans (by rw [if_neg hne])
  | @fill id' name ty h hty ho =>
    refine ⟨_, ScopeTree.get?_modify_of_get? _ hs, ?_⟩
    split
    next he =>
      subst he
      have hhole : s.bindings.get? name = some .hole := by
        simpa [ScopeTree.lookup?, hs] using h
      exact .fill hhole hty ho
    next => exact .refl s
  | takeSlot h ho =>
    obtain ⟨owner, ha, -, rfl⟩ := ScopeTree.takeRootSlot?_eq_some h
    refine ⟨_, ScopeTree.get?_modify_of_get? _ hs, ?_⟩
    rw [ha] at ho
    split
    next he =>
      subst he
      exact ⟨rfl, rfl, Nat.le_succ _, .inr ho, .inl rfl, fun _ => .inl rfl⟩
    next => exact .refl s

/-- What all changes together do to it. -/
theorem Touches.adjusts (h : c.Touches n own c') (hc : c.scopes.Ordered) {id : Nat} {s : Scope}
    (hid : id < n) (hs : c.scopes.get? id = some s) : ∃ s', c'.scopes.get? id = some s' ∧
      s.Adjusts (own (some id)) (own (c.scopes.activation? id)) s' := by
  induction h with
  | refl => exact ⟨s, hs, .refl s⟩
  | tail hr ht ih =>
    obtain ⟨s', hs', ha⟩ := ih
    obtain ⟨s'', hs'', ha'⟩ := ht.adjusts hid hs'
    rw [(Touches.reaches hr).activation?_eq hc (ScopeTree.lt_size_of_get? hs)] at ha'
    exact ⟨s'', hs'', ha.trans ha'⟩

/-- A context in which a check can run in a scope, with `n` scopes opened before it began. -/
structure Hosts (n scope : Nat) (c : Context) : Prop where
  ordered : c.scopes.Ordered
  opened : scope < c.scopes.size
  before : n ≤ c.scopes.size

theorem Hosts.reaches {scope : Nat} (hc : c.Hosts n scope) (h : c.Reaches c') :
    c'.Hosts n scope :=
  ⟨h.ordered hc.ordered, Nat.lt_of_lt_of_le hc.opened h.size_le, hc.before.trans h.size_le⟩

theorem Touches.bind {α β : Type} {x : Check α} {f : α → Check β}
    (hx : c.Touches n own (.after (x c)))
    (hf : ∀ v c', x c = .ok v c' → c.Touches n own c' → c'.Touches n own (.after (f v c'))) :
    c.Touches n own (.after ((x >>= f) c)) := by
  rw [bind_run]
  cases hr : x c with
  | ok v c' =>
    rw [hr] at hx
    exact hx.trans (hf v c' hr hx)
  | error d c' =>
    rw [hr] at hx
    exact hx

theorem Touches.of_asks {α : Type} {x : Check α} (h : Check.Asks x) :
    c.Touches n own (.after (x c)) := by
  rw [h.after_eq c]
  exact .refl

theorem Touches.ite {α : Type} {x y : Check α} {p : Prop} [Decidable p]
    (hx : c.Touches n own (.after (x c))) (hy : c.Touches n own (.after (y c))) :
    c.Touches n own (.after ((if p then x else y) c)) := by
  by_cases hp : p
  · rw [if_pos hp]
    exact hx
  · rw [if_neg hp]
    exact hy

/-- Opening a scope, with what is known about it from then on. -/
theorem Touches.opened {α : Type} {scope : Nat} (kind : ScopeKind) {f : Nat → Check α}
    (hc : c.Hosts n scope)
    (hf : ∀ (inner : Nat) (c' : Context), n ≤ inner → c'.Hosts n inner → c'.Hosts n scope →
      c'.scopes.activation? inner =
        (if kind = .procedure then some inner else c.scopes.activation? scope) →
      c'.Touches n own (.after (f inner c'))) :
    c.Touches n own (.after ((Check.openScope kind scope >>= f) c)) := by
  have hopen : c.Touch n own { c with scopes := (c.scopes.create kind (some scope)).2 } :=
    .openScope kind hc.opened
  have hreaches : c.Reaches { c with scopes := (c.scopes.create kind (some scope)).2 } :=
    .single hopen.step
  have hhosts := hc.reaches hreaches
  refine Relation.ReflTransGen.head hopen (hf c.scopes.size _ hc.before ?_ hhosts ?_)
  · exact ⟨hhosts.ordered, by simp, hhosts.before⟩
  · rw [hhosts.ordered.activation?_eq (ScopeTree.get?_create_self _ _ _)]
    simp only [Option.bind_some, hreaches.activation?_eq hc.ordered hc.opened]

end Context

/-- A check that writes only for the activations `own`, from every context in which its scope
belongs to one of them. -/
def Check.Writes {α : Type} (n : Nat) (own : Option Nat → Prop) (scope : Nat) (x : Check α) :
    Prop :=
  ∀ c : Context, c.Hosts n scope → own (c.scopes.activation? scope) →
    c.Touches n own (.after (x c))

namespace Check.Writes

variable {α β : Type} {n scope : Nat} {own : Option Nat → Prop} {x y : Check α}

theorem bind {f : α → Check β} (hx : Writes n own scope x) (hf : ∀ v, Writes n own scope (f v)) :
    Writes n own scope (x >>= f) := by
  intro c hc ho
  refine (hx c hc ho).bind fun v c' _ h => hf v c' (hc.reaches h.reaches) ?_
  rw [h.reaches.activation?_eq hc.ordered hc.opened]
  exact ho

theorem of_asks (h : Asks x) : Writes n own scope x := fun _ _ _ => .of_asks h

theorem ite {p : Prop} [Decidable p] (hx : Writes n own scope x) (hy : Writes n own scope y) :
    Writes n own scope (if p then x else y) :=
  fun c hc ho => .ite (hx c hc ho) (hy c hc ho)

theorem define {id : Nat} (h : n ≤ id) (name : String) (ty : Ty) :
    Writes n own scope (Check.define id name ty) :=
  fun _ _ _ => .single (.define h name ty)

theorem defineAll {id : Nat} (h : n ≤ id) (ps : List (String × Ty)) :
    Writes n own scope (Check.defineAll id ps) := by
  induction ps with
  | nil => exact .of_asks (.pure _)
  | cons p more ih => exact (Writes.define h p.1 p.2).bind fun _ => ih

theorem rootFor (ty : Ty) (position : Position) :
    Writes n own scope (Check.rootFor ty scope position) := by
  unfold Check.rootFor
  refine .ite (fun c _ ho => ?_) (.of_asks (.pure _))
  cases h : c.scopes.takeRootSlot? scope with
  | none => exact .refl
  | some p => exact .single (.takeSlot h ho)

end Check.Writes

/-- A typed expression that is no name. -/
def Typed.Expr.Unnamed (x : Typed.Expr) : Prop :=
  ∀ info name level origin, x ≠ .name info name level origin

/-- A check whose results all are `good`. -/
def Check.Gives {α : Type} (good : α → Prop) (x : Check α) : Prop := Yields (fun _ => True) good x

namespace Check.Gives

variable {α β : Type} {good : β → Prop} {x y : Check β}

theorem fail (cause : Cause) (position : Position) :
    Gives good (Check.fail cause position) := fun _ => trivial

theorem ite {p : Prop} [Decidable p] (hx : Gives good x) (hy : Gives good y) :
    Gives good (if p then x else y) := by
  split
  · exact hx
  · exact hy

/-- Only what is checked last gives the result. -/
theorem last {z : Check α} {f : α → Check β} (hf : ∀ v, Gives good (f v)) :
    Gives good (z >>= f) := by
  have hz : Yields (fun _ => True) (fun _ => True) z := fun c => by cases z c <;> trivial
  exact hz.bind fun v _ => hf v

end Check.Gives

open Check (Gives)

theorem Typed.Expr.gives_call {scope : Nat} (arguments : List RootedC.Expr)
    (c : Typed.Callee Typed.Expr) (signature : Ty) (span : Span) :
    Gives Typed.Expr.Unnamed
      (match signature with
        | .proc parameters result => do
          Check.checkCount arguments parameters.length span.stop
          let arguments ← RootedC.checkArguments scope arguments parameters
          let root? ← Check.rootFor result scope span.start
          return .call ⟨result, root?, span⟩ c arguments
        | other => Check.fail (.notCallable other.display) span.start : Check Typed.Expr) := by
  cases signature with
  | proc => exact .last fun _ => .last fun _ => .last fun _ => Yields.pure nofun
  | _ => exact .fail _ _

/-- Only a name is typed as a name. -/
theorem Expr.check_unnamed {e : Expr} (he : ∀ name span, e ≠ .name name span) (scope : Nat) :
    Gives Typed.Expr.Unnamed (e.check scope) := by
  cases e with
  | name name span => exact absurd rfl (he name span)
  | number | text | boolean | unit =>
    rw [Expr.check]
    exact Yields.pure nofun
  | unary operator operand span =>
    rw [Expr.check]
    cases UnaryOp.ofKind? operator.kind with
    | none => exact .fail _ _
    | some op => exact .last fun _ => .last fun _ => .ite (Yields.pure nofun) (.fail _ _)
  | binary left operator right span =>
    rw [Expr.check]
    cases BinaryOp.ofKind? operator.kind with
    | none => exact .fail _ _
    | some op =>
      exact .last fun _ => .last fun _ => .last fun _ => .ite (Yields.pure nofun) (.fail _ _)
  | call callee arguments span =>
    cases callee with
    | procedure literal =>
      rw [Expr.check, ← bind_assoc]
      exact .last fun c => Typed.Expr.gives_call arguments c.1 c.2 span
    | name name nameSpan =>
      rw [Expr.check]
      exact .last fun c => Typed.Expr.gives_call arguments c.1 c.2 span
    | _ =>
      rw [Expr.check, ← bind_assoc]
      · exact .last fun c => Typed.Expr.gives_call arguments c.1 c.2 span
      · exact fun _ h => by cases h
      · exact fun _ _ h => by cases h
  | branch condition thenArm elseArm? span =>
    rw [Expr.check]
    refine .last fun _ => .last fun _ => .last fun _ => ?_
    cases elseArm? <;> exact .last fun _ => .last fun _ => Yields.pure nofun
  | letIn =>
    rw [Expr.check]
    exact .last fun _ => .last fun _ => .last fun _ => .last fun _ => Yields.pure nofun
  | procedure =>
    rw [Expr.check]
    exact .fail _ _
  | block =>
    rw [Expr.check]
    exact .last fun _ => Yields.pure nofun

theorem Context.lookup?_of_find? {c : Context} {scope level definedIn : Nat} {name : String}
    {ty : Ty} (h : c.find? scope name = some (ty, level, .lexical definedIn)) :
    c.scopes.lookup? definedIn name = some ty := by
  unfold Context.find? at h
  split at h
  next r hr =>
    cases h
    exact ScopeTree.lookup?_of_findIn hr
  next =>
    split at h
    · cases h
    · obtain ⟨b, -, hb⟩ := Option.map_eq_some_iff.mp h
      cases hb

theorem Check.sameActivation_eq_ok {scope definedIn : Nat} {position : Position} {c c' : Context}
    (h : sameActivation scope definedIn position c = .ok () c') :
    c' = c ∧ c.scopes.activation? scope = c.scopes.activation? definedIn := by
  obtain ⟨c₀, c₁, hget, h⟩ := bind_eq_ok.mp h
  cases hget
  split at h
  next ha => exact ⟨(pure_eq_ok.mp h).2.symm, ha⟩
  next => cases h

/-- A name that is found in a scope has the type given there, and the scope belongs to the same
activation. -/
theorem Check.checkName_lexical {scope definedIn level : Nat} {x name : String} {span : Span}
    {info : Typed.Info} {c c' : Context}
    (h : checkName scope x span c = .ok (.name info name level (.lexical definedIn)) c') :
    c'.scopes.lookup? definedIn name = some info.ty ∧
      c'.scopes.activation? scope = c'.scopes.activation? definedIn := by
  obtain ⟨c₀, c₁, hget, h⟩ := bind_eq_ok.mp h
  cases hget
  cases hfind : c.find? scope x with
  | none =>
    rw [hfind] at h
    cases h
  | some r =>
    obtain ⟨ty, depth, origin⟩ := r
    rw [hfind] at h
    have hname : ∀ c₁ : Context, (if ty.isProcedure then fail .firstClassProcedure span.start
        else pure (.name ⟨ty, none, span⟩ x depth origin) : Check Typed.Expr) c₁ =
          .ok (.name info name level (.lexical definedIn)) c' →
        ty = info.ty ∧ x = name ∧ origin = .lexical definedIn ∧ c' = c₁ := by
      intro c₁ h
      by_cases hp : ty.isProcedure = true
      · rw [if_pos hp] at h
        cases h
      · rw [if_neg hp] at h
        cases h
        exact ⟨rfl, rfl, rfl, rfl⟩
    cases origin with
    | lexical site =>
      obtain ⟨_, c₂, hsame, h⟩ := bind_eq_ok.mp h
      obtain ⟨rfl, rfl, hsite, rfl⟩ := hname c₂ h
      cases hsite
      obtain ⟨rfl, ha⟩ := sameActivation_eq_ok hsame
      exact ⟨Context.lookup?_of_find? hfind, ha⟩
    | global | builtin =>
      obtain ⟨-, -, hsite, -⟩ := hname c h
      cases hsite

/-- The type of a name is what its scope says, and the capture check has passed. -/
theorem Expr.check_lexical {e : Expr} {scope definedIn level : Nat} {name : String}
    {info : Typed.Info} {c c' : Context}
    (h : e.check scope c = .ok (.name info name level (.lexical definedIn)) c') :
    c'.scopes.lookup? definedIn name = some info.ty ∧
      c'.scopes.activation? scope = c'.scopes.activation? definedIn := by
  by_cases he : ∃ z span, e = .name z span
  · obtain ⟨z, span, rfl⟩ := he
    rw [Expr.check] at h
    exact Check.checkName_lexical h
  · have hunnamed := Expr.check_unnamed (fun z span hz => he ⟨z, span, hz⟩) scope c
    rw [h] at hunnamed
    exact absurd rfl (hunnamed _ _ _ _)

theorem UnaryOp.ty_eq (op : UnaryOp) : op.ty = .i32 ∨ op.ty = .bool := by
  cases op
  · exact .inl rfl
  · exact .inr rfl

/-- A hole is filled where the capture check has let the name pass. -/
theorem Context.Touches.fillHole {n scope : Nat} {own : Option Nat → Prop} {e : Expr}
    {x : Typed.Expr} {c c' : Context} (op : UnaryOp) (h : e.check scope c = .ok x c')
    (ho : own (c'.scopes.activation? scope)) :
    c'.Touches n own (.after (Check.fillHole op.ty x c')) := by
  unfold Check.fillHole
  split
  next root? span name level definedIn =>
    obtain ⟨hhole, ha⟩ := Expr.check_lexical h
    exact .single (.fill hhole op.ty_eq (ha ▸ ho))
  next => exact .refl

open Check (Writes)

section Whole

variable {n : Nat} {own : Option Nat → Prop}

/-- Opening a procedure, whose activation is its own. -/
theorem Context.Touches.openProcedure {α : Type} {c : Context} {parent : Nat}
    (hown : ∀ owner, n ≤ owner → own (some owner)) (hc : c.Hosts n parent)
    (ps : List (String × Ty)) {f : Nat → Check α}
    (hf : ∀ (inner : Nat) (c' : Context), c'.Hosts n inner → c'.Hosts n parent →
      own (c'.scopes.activation? inner) → c'.Touches n own (.after (f inner c'))) :
    c.Touches n own (.after ((Check.openProcedure parent ps >>= f) c)) := by
  have heq : Check.openProcedure parent ps >>= f =
      Check.openScope .procedure parent >>= fun inner => Check.defineAll inner ps >>= fun _ =>
        f inner := by
    simp only [Check.openProcedure, bind_assoc, pure_bind]
  rw [heq]
  refine .opened .procedure hc fun inner c' hinner hc' hparent ha => ?_
  have ho : own (c'.scopes.activation? inner) := by
    rw [ha]
    exact hown inner hinner
  refine (Writes.defineAll hinner ps c' hc' ho).bind fun _ c'' _ h => hf inner c'' ?_ ?_ ?_
  · exact hc'.reaches h.reaches
  · exact hparent.reaches h.reaches
  · rw [h.reaches.activation?_eq hc'.ordered hc'.opened]
    exact ho

/-- A literal writes for activations of its own only, wherever it stands. -/
theorem Context.Touches.procedure {c : Context} {parent : Nat}
    (hown : ∀ owner, n ≤ owner → own (some owner)) (hc : c.Hosts n parent)
    (literal : Procedure Expr) (hbody : ∀ inner, Writes n own inner (literal.body.check inner)) :
    c.Touches n own (.after (literal.check parent c)) := by
  rw [Procedure.check]
  refine (of_asks (.checkDistinct _ _)).bind fun _ c₁ _ h₁ => ?_
  refine (of_asks (.lift (Check.writtenTypes_refused _).sincere)).bind fun written c₂ _ h₂ => ?_
  have hc₂ := (hc.reaches h₁.reaches).reaches h₂.reaches
  refine .openProcedure hown hc₂ _ fun first c₃ hfirst hparent ho => ?_
  refine (hbody first c₃ hfirst ho).bind fun x c₄ _ h₄ => ?_
  refine (of_asks .get).bind fun seen c₅ _ h₅ => ?_
  refine .ite ?_ (of_asks (.closeProcedure _ _ _ _ _ _))
  have hc₅ := (hparent.reaches h₄.reaches).reaches h₅.reaches
  refine .openProcedure hown hc₅ _ fun second c₆ hsecond _ ho => ?_
  exact (hbody second c₆ hsecond ho).bind fun y c₇ _ _ => of_asks (.closeProcedure _ _ _ _ _ _)

theorem Check.Writes.closed (hown : ∀ owner, n ≤ owner → own (some owner)) :
    Check.Closed fun scope _ x => Writes n own scope x where
  ask := of_asks
  bind := bind
  fill op h := by
    intro c hc ho
    -- what is filled is known only with the result of the operand
    refine (h c hc ho).bind fun x c' hx hreach => Context.Touches.fillHole op hx ?_
    rw [hreach.reaches.activation?_eq hc.ordered hc.opened]
    exact ho
  root _ ty position := rootFor ty position
  openLet hf := by
    intro c hc ho
    refine .opened .letIn hc fun inner c' hinner hc' _ ha => ?_
    -- a let belongs to the activation around it
    exact hf inner (define hinner) c' hc' (by rw [ha]; exact ho)
  procedure literal hbody := fun _ hc _ => .procedure hown hc literal hbody

theorem Expr.check_writes (hown : ∀ owner, n ≤ owner → own (some owner)) (e : Expr) (scope : Nat) :
    Writes n own scope (e.check scope) :=
  (Writes.closed hown).check e scope

end Whole

namespace Context

/-- What a check in a scope may change of what was known before it. -/
structure Confined (scope : Nat) (c c' : Context) : Prop where
  globals : c'.globals = c.globals
  moduleScope : c'.moduleScope = c.moduleScope
  scopes : ∀ id s, c.scopes.get? id = some s → ∃ s', c'.scopes.get? id = some s' ∧
    s.Adjusts (c.scopes.activation? scope = some id)
      (c.scopes.activation? id = c.scopes.activation? scope) s'

/-- More scopes may be known, and nothing else has changed. -/
structure Extends (c c' : Context) : Prop where
  globals : c'.globals = c.globals
  moduleScope : c'.moduleScope = c.moduleScope
  scopes : ∀ id s, c.scopes.get? id = some s → c'.scopes.get? id = some s

variable {c c' : Context}

/-- Writing for the activation of a scope and for new ones. -/
theorem Touches.confined {scope : Nat} (hc : c.scopes.Ordered)
    (h : c.Touches c.scopes.size (fun a => a = c.scopes.activation? scope ∨
      ∃ owner, c.scopes.size ≤ owner ∧ a = some owner) c') : c.Confined scope c' := by
  refine ⟨h.globals_eq, h.reaches.moduleScope_eq, fun id s hs => ?_⟩
  have hid := ScopeTree.lt_size_of_get? hs
  obtain ⟨s', hs', ha⟩ := h.adjusts hc hid hs
  refine ⟨s', hs', ha.imp ?_ ?_⟩
  · rintro (ho | ⟨owner, hle, ho⟩)
    · exact ho.symm
    · cases ho
      omega
  · rintro (ho | ⟨owner, hle, ho⟩)
    · exact ho
    · have := hc.activation?_le ho hid
      omega

/-- Writing for new activations only. -/
theorem Touches.extends (hc : c.scopes.Ordered)
    (h : c.Touches c.scopes.size (fun a => ∃ owner, c.scopes.size ≤ owner ∧ a = some owner) c') :
    c.Extends c' := by
  refine ⟨h.globals_eq, h.reaches.moduleScope_eq, fun id s hs => ?_⟩
  have hid := ScopeTree.lt_size_of_get? hs
  obtain ⟨s', hs', ha⟩ := h.adjusts hc hid hs
  rw [hs', ha.eq]
  · rintro ⟨owner, hle, ho⟩
    cases ho
    omega
  · rintro ⟨owner, hle, ho⟩
    have := hc.activation?_le ho hid
    omega

/-- A check of an expression touches nothing outside the activation it runs in, and a check of a
literal nothing that was there before; both also where they fail. -/
theorem confined_to_activation (hc : c.scopes.Ordered) {scope : Nat}
    (hscope : scope < c.scopes.size) :
    (∀ e : Expr, c.Confined scope (.after (e.check scope c))) ∧
      ∀ literal : Procedure Expr, c.Extends (.after (literal.check scope c)) := by
  have hhosts : c.Hosts c.scopes.size scope := ⟨hc, hscope, Nat.le_refl _⟩
  constructor
  · intro e
    refine Touches.confined hc (e.check_writes ?_ scope c hhosts (.inl rfl))
    exact fun owner hle => .inr ⟨owner, hle, rfl⟩
  · intro literal
    have hown : ∀ owner, c.scopes.size ≤ owner →
        ∃ o, c.scopes.size ≤ o ∧ some owner = some o := fun owner hle => ⟨owner, hle, rfl⟩
    exact Touches.extends hc (.procedure hown hhosts literal (literal.body.check_writes hown))

/-- A procedure with an untyped parameter, and a let inside it. -/
def pending : Context :=
  ⟨⟨#[⟨.module, [], 0, none⟩, ⟨.procedure, [("p", .hole)], 0, some 0⟩, ⟨.letIn, [], 0, some 1⟩]⟩,
    [], 0⟩

/-- `{ -p; str_concat("a", "b"); q }`, where `q` is unknown. -/
def interrupted : Expr :=
  .block [.unary ⟨.dash, "-", .empty .nowhere⟩ (.name "p" (.empty .nowhere)) (.empty .nowhere),
    .call (.name "str_concat" (.empty .nowhere))
      [.text "a" (.empty .nowhere), .text "b" (.empty .nowhere)] (.empty .nowhere),
    .name "q" (.empty .nowhere)] (.empty .nowhere)

theorem pending_ordered : pending.scopes.Ordered := by
  intro id s hs p hp
  have hid : id < 3 := ScopeTree.lt_size_of_get? hs
  interval_cases id <;> cases hs <;> cases hp <;> decide

theorem confined_to_activation_interrupted :
    pending.Confined 2 (.after (interrupted.check 2 pending)) ∧
      (interrupted.check 2 pending matches .error ..) = true ∧
      (Context.after (interrupted.check 2 pending)).scopes.lookup? 1 "p" = some .i32 ∧
      (Context.after (interrupted.check 2 pending)).scopes.rootSlotsAt 1 = 1 ∧
      pending.Extends
        (.after ((⟨[], none, interrupted, .empty .nowhere⟩ : Procedure Expr).check 2 pending)) := by
  obtain ⟨hexpr, hliteral⟩ := confined_to_activation pending_ordered (by decide : 2 < _)
  exact ⟨hexpr interrupted, by decide +kernel, eq_of_beq (by decide +kernel), by decide +kernel,
    hliteral _⟩

end Context

end RootedC
