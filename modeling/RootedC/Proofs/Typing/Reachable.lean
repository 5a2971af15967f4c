import Mathlib.Logic.Relation
import RootedC.Proofs.Typing.Closed
import RootedC.Proofs.Typing.Globals

/-!
The contexts that a compilation passes through. A check changes what it knows in small steps: it
declares a top-level name, opens a scope inside one that is open, binds a name or hands out a root
slot. Whatever is checked, and whether or not it succeeds, the context left behind is reached by
such steps; and in every context reached from the initial one the scopes around a place make a
stack and no top-level name has a hole in its type.
-/
namespace RootedC

/-- One change that a check makes to what it knows. -/
inductive Context.Step (c : Context) : Context → Prop
  | declare (name : String) {ty : Ty} (h : ty.settled = true) :
    Step c { c with globals := c.globals.bind name ty }
  | openScope (kind : ScopeKind) {parent : Nat} (h : parent < c.scopes.size) :
    Step c { c with scopes := (c.scopes.create kind (some parent)).2 }
  | define (scope : Nat) (name : String) (ty : Ty) :
    Step c { c with scopes := c.scopes.define scope name ty }
  | takeSlot {scope slot : Nat} {t : ScopeTree}
    (h : c.scopes.takeRootSlot? scope = some (slot, t)) : Step c { c with scopes := t }

def Context.Reaches : Context → Context → Prop := Relation.ReflTransGen Context.Step

def Context.Reachable (c : Context) : Prop := Context.initial.Reaches c

/-- What all contexts of a compilation have in common. -/
structure Context.WellFormed (c : Context) : Prop where
  parents : ∀ id s, c.scopes.get? id = some s → ∀ p ∈ s.parent?, p < id
  globals : ∀ x t, c.globals.get? x = some t → t.settled = true
  home : c.moduleScope < c.scopes.size

section Invariant

namespace ScopeTree

variable {t : ScopeTree}

/-- Every scope is opened after the one around it. -/
def Ordered (t : ScopeTree) : Prop := ∀ id s, t.get? id = some s → ∀ p ∈ s.parent?, p < id

theorem get?_modify (t : ScopeTree) (change : Scope → Scope) (owner id : Nat) :
    (⟨t.scopes.modify owner change⟩ : ScopeTree).get? id =
      if owner = id then (t.get? id).map change else t.get? id := by
  unfold ScopeTree.get?
  rw [Array.getElem?_modify]

/-- Changing the bindings or the root slots of a scope leaves the scopes where they are. -/
theorem Ordered.modify (h : t.Ordered) (id : Nat) {change : Scope → Scope}
    (hc : ∀ s, (change s).parent? = s.parent?) :
    Ordered ⟨t.scopes.modify id change⟩ := by
  intro i s hs
  rw [get?_modify] at hs
  split at hs
  · obtain ⟨s₀, hs₀, rfl⟩ := Option.map_eq_some_iff.mp hs
    rw [hc]
    exact h i s₀ hs₀
  · exact h i s hs

theorem Ordered.create (h : t.Ordered) (kind : ScopeKind) {parent? : Option Nat}
    (hp : ∀ p ∈ parent?, p < t.size) : (t.create kind parent?).2.Ordered := by
  intro id s hs
  have hid := lt_size_of_get? hs
  rw [size_create] at hid
  rcases Nat.lt_succ_iff_lt_or_eq.mp hid with hlt | rfl
  · have hold : t.get? id = some t.scopes[id] := Array.getElem?_eq_getElem hlt
    rw [get?_create _ _ hold, Option.some.injEq] at hs
    exact hs ▸ h id _ hold
  · rw [get?_create_self, Option.some.injEq] at hs
    rw [← hs]
    exact hp

/-- The scopes around a scope make a stack. -/
theorem Ordered.exists_linked (h : t.Ordered) :
    ∀ {id : Nat}, id < t.size → ∃ s outer, t.Linked ((id, s) :: outer) := by
  intro id
  induction id using Nat.strongRecOn with
  | _ id ih =>
    intro hid
    have hs : t.get? id = some t.scopes[id] := Array.getElem?_eq_getElem hid
    cases hp : (t.scopes[id]).parent? with
    | none => exact ⟨_, [], hs, hp, by simp, trivial⟩
    | some p =>
      have hlt := h id _ hs p hp
      obtain ⟨s', outer, hl⟩ := ih p hlt (Nat.lt_trans hlt hid)
      refine ⟨_, (p, s') :: outer, hs, hp, fun q hq => ?_, hl⟩
      rcases List.mem_cons.mp hq with rfl | hq
      · exact hlt
      · exact Nat.lt_trans (hl.2.2.1 q hq) hlt

end ScopeTree

namespace Context
variable {c c' : Context}

theorem Step.size_le (h : c.Step c') : c.scopes.size ≤ c'.scopes.size := by
  cases h with
  | declare => exact Nat.le_refl _
  | openScope => simp
  | define => simp [ScopeTree.define, ScopeTree.size]
  | takeSlot h =>
    obtain ⟨owner, -, ht⟩ := Option.map_eq_some_iff.mp h
    cases ht
    simp [ScopeTree.size]

theorem Reaches.size_le (h : c.Reaches c') : c.scopes.size ≤ c'.scopes.size := by
  induction h with
  | refl => exact Nat.le_refl _
  | tail _ hs ih => exact Nat.le_trans ih hs.size_le

theorem Step.moduleScope_eq (h : c.Step c') : c'.moduleScope = c.moduleScope := by
  cases h <;> rfl

theorem Reaches.moduleScope_eq (h : c.Reaches c') : c'.moduleScope = c.moduleScope := by
  induction h with
  | refl => rfl
  | tail _ hs ih => rw [hs.moduleScope_eq, ih]

theorem Step.ordered (h : c.Step c') (hc : c.scopes.Ordered) : c'.scopes.Ordered := by
  cases h with
  | declare => exact hc
  | openScope kind hp => exact hc.create kind (by simpa using hp)
  | define scope name ty => exact hc.modify scope fun _ => rfl
  | takeSlot h =>
    obtain ⟨owner, -, ht⟩ := Option.map_eq_some_iff.mp h
    cases ht
    exact hc.modify owner fun _ => rfl

theorem Step.wellFormed (h : c.Step c') (hc : c.WellFormed) : c'.WellFormed := by
  refine ⟨h.ordered hc.parents, ?_, h.moduleScope_eq ▸ Nat.lt_of_lt_of_le hc.home h.size_le⟩
  cases h with
  | @declare name ty ht =>
    intro x t hx
    by_cases hxn : x = name
    · subst hxn
      rw [Bindings.get?_bind_self, Option.some.injEq] at hx
      exact hx ▸ ht
    · rw [Bindings.get?_bind_of_ne _ _ hxn] at hx
      exact hc.globals x t hx
  | openScope | define | takeSlot => exact hc.globals

theorem wellFormed_initial : initial.WellFormed := by
  refine ⟨fun id s hs => ?_, fun x t hx => by simp [initial, Bindings.get?] at hx, by decide⟩
  have hid : id = 0 := by
    have hlt : id < 0 + 1 := ScopeTree.lt_size_of_get? hs
    omega
  subst hid
  cases hs
  rintro p ⟨⟩

theorem Reachable.wellFormed (h : c.Reachable) : c.WellFormed := by
  unfold Reachable Reaches at h
  induction h with
  | refl => exact wellFormed_initial
  | tail _ hs ih => exact hs.wellFormed ih

/-- A place in a context of a compilation, as the passes over frames see it. -/
theorem Reachable.holds (h : c.Reachable) {parent : Nat} (hp : parent < c.scopes.size) :
    ∃ site : Lexical.Site, site.outer.head?.map Prod.fst = some parent ∧
      Lexical.Holds site c c.scopes.size ∧
      ∀ x t, site.outside.globals.get? x = some t → t.settled = true := by
  obtain ⟨s, outer, hl⟩ := ScopeTree.Ordered.exists_linked h.wellFormed.parents hp
  exact ⟨⟨(parent, s) :: outer, c.globals, c.moduleScope⟩, rfl, ⟨rfl, rfl, rfl, hl⟩,
    h.wellFormed.globals⟩

end Context

end Invariant

/-- The context that a check leaves behind. -/
def Context.after {α : Type} : EStateM.Result Diagnostic Context α → Context
  | .ok _ c => c
  | .error _ c => c

theorem Check.Asks.after_eq {α : Type} {x : Check α} (h : Asks x) (c : Context) :
    .after (x c) = c := by
  have hc := h c
  generalize x c = r at hc ⊢
  cases r with
  | ok v c' => exact hc
  | error d c' => exact hc.1

/-- A check that goes in steps from every context in which a scope is open. -/
def Check.Steps {α : Type} (scope : Nat) (x : Check α) : Prop :=
  ∀ c : Context, scope < c.scopes.size → c.Reaches (.after (x c))

theorem Context.Reaches.bind {α β : Type} {x : Check α} {f : α → Check β} {c : Context}
    (hx : c.Reaches (.after (x c)))
    (hf : ∀ v c', c.Reaches c' → c'.Reaches (.after (f v c'))) :
    c.Reaches (.after ((x >>= f) c)) := by
  rw [bind_run]
  generalize x c = r at hx ⊢
  cases r with
  | ok v c' => exact hx.trans (hf v c' hx)
  | error d c' => exact hx

namespace Check.Steps
variable {α β : Type} {scope : Nat} {x y : Check α}

theorem bind {f : α → Check β} (hx : Steps scope x) (hf : ∀ v, Steps scope (f v)) :
    Steps scope (x >>= f) :=
  fun c hc => (hx c hc).bind fun v c' h => hf v c' (Nat.lt_of_lt_of_le hc h.size_le)

theorem of_asks (h : Asks x) : Steps scope x := by
  intro c _
  rw [h.after_eq c]
  exact .refl

theorem pure (v : α) : Steps scope (Pure.pure v) := of_asks (.pure v)

theorem get : Steps scope (MonadState.get : Check Context) := of_asks .get

theorem fail (cause : Cause) (position : Position) :
    Steps scope (Check.fail cause position : Check α) :=
  fun _ _ => .refl

/-- What follows a written type may use that it has a meaning. -/
theorem bind_lift {z : Except Diagnostic α} {f : α → Check β}
    (hf : ∀ v, z = .ok v → Steps scope (f v)) : Steps scope (Check.lift z >>= f) := by
  cases z with
  | ok v => exact hf v rfl
  | error d => exact fun _ _ => .refl

theorem ite {p : Prop} [Decidable p] (hx : Steps scope x) (hy : Steps scope y) :
    Steps scope (if p then x else y) := by
  split
  · exact hx
  · exact hy

theorem define (id : Nat) (name : String) (ty : Ty) : Steps scope (Check.define id name ty) :=
  fun _ _ => .single (.define id name ty)

theorem defineAll (id : Nat) (ps : List (String × Ty)) : Steps scope (Check.defineAll id ps) := by
  induction ps with
  | nil => exact .pure _
  | cons p more ih => exact (Steps.define id p.1 p.2).bind fun _ => ih

theorem rootFor (ty : Ty) (id : Nat) (position : Position) :
    Steps scope (Check.rootFor ty id position) := by
  unfold Check.rootFor
  refine .ite (fun c _ => ?_) (.pure _)
  cases h : c.scopes.takeRootSlot? id with
  | none => exact .refl
  | some p => exact .single (.takeSlot h)

/-- Scopes opened before a scope are open where it is. -/
theorem mono {inner : Nat} (hx : Steps scope x) (h : scope < inner) : Steps inner x :=
  fun c hc => hx c (Nat.lt_trans h hc)

/-- A scope that is opened inside another one is open from then on. -/
theorem opened (kind : ScopeKind) {f : Nat → Check β}
    (hf : ∀ inner, scope < inner → Steps inner (f inner)) :
    Steps scope (Check.openScope kind scope >>= f) := by
  intro c hc
  have hopen : c.Reaches { c with scopes := (c.scopes.create kind (some scope)).2 } :=
    .single (.openScope kind hc)
  exact hopen.trans (hf c.scopes.size hc _ (by simp))

theorem fillHole (expected : Ty) (operand : Typed.Expr) :
    Steps scope (Check.fillHole expected operand) := by
  unfold Check.fillHole
  split
  · exact (Steps.define _ _ _).bind fun _ => .pure _
  · exact .pure _

theorem openProcedure (ps : List (String × Ty)) {f : Nat → Check β}
    (hf : ∀ inner, scope < inner → Steps inner (f inner)) :
    Steps scope (Check.openProcedure scope ps >>= f) := by
  have heq : Check.openProcedure scope ps >>= f =
      Check.openScope .procedure scope >>= fun inner => Check.defineAll inner ps >>= fun _ =>
        f inner := by
    simp only [Check.openProcedure, bind_assoc, pure_bind]
  rw [heq]
  exact .opened _ fun inner hlt => (Steps.defineAll inner ps).bind fun _ => hf inner hlt

theorem closed : Closed fun scope _ x => Steps scope x where
  ask := of_asks
  bind := bind
  fill _ h := h.bind (fillHole _)
  root scope ty position := rootFor ty scope position
  openLet hf := opened _ fun inner _ => hf inner (define inner)
  procedure literal hbody := by
    rw [Procedure.check]
    refine (of_asks (.checkDistinct _ _)).bind fun _ =>
      (of_asks (.lift (writtenTypes_refused _).sincere)).bind fun written => ?_
    refine openProcedure _ fun first hlt => (hbody first).bind fun e => ?_
    refine get.bind fun c => ite ?_ (of_asks (.closeProcedure _ _ _ _ _ _))
    -- the second scope is opened under the parent again, which has stayed open meanwhile
    refine mono (openProcedure _ fun second _ => ?_) hlt
    exact (hbody second).bind fun e => of_asks (.closeProcedure _ _ _ _ _ _)

end Check.Steps

open Check (Steps)

theorem Expr.check_steps (e : Expr) (scope : Nat) : Steps scope (e.check scope) :=
  Steps.closed.check e scope

theorem Procedure.check_steps (literal : Procedure Expr) (parent : Nat) :
    Steps parent (literal.check parent) :=
  Steps.closed.checkProcedure literal parent

namespace Item
open Check

theorem declare_steps (item : Item) (scope : Nat) : Steps scope item.declare := by
  have hnew (name : String) (start : Position) : Steps scope (checkNew name start) :=
    Steps.get.bind fun _ => .ite (.fail _ _) (.ite (.fail _ _) (.pure _))
  have hdeclare (name : String) {ty : Ty} (h : ty.settled = true) :
      Steps scope (declareGlobal name ty) := fun _ _ => .single (.declare name h)
  cases item with
  | procedure name literal span =>
    refine (hnew _ _).bind fun _ => .bind_lift fun ty hty => hdeclare name ?_
    have h : (Item.procedure name literal span).ty? = some ty := toOption_eq_some.mpr hty
    exact settled_of_ty? h
  | constant name type? value span =>
    refine (hnew _ _).bind fun _ => ?_
    cases type? with
    | none => exact .fail _ _
    | some t => exact .bind_lift fun ty hty => hdeclare name (TypeExpr.settled_of_toTy hty)
  | mutable name type? value span => exact .fail _ _
  | entry body span => exact .pure _

theorem declareAll_steps (items : List Item) (scope : Nat) : Steps scope (declareAll items) := by
  induction items with
  | nil => exact .pure _
  | cons item more ih => exact (item.declare_steps scope).bind fun _ => ih

/-- Items are checked in the scope of their module. -/
theorem check_reaches (item : Item) {c : Context} (h : c.moduleScope < c.scopes.size) :
    c.Reaches (.after (item.check c)) := by
  cases item with
  | procedure name literal span =>
    exact ((literal.check_steps c.moduleScope).bind fun _ => .pure _) c h
  | constant name type? value span =>
    refine Context.Reaches.bind ?_ fun _ _ _ => .refl
    unfold checkConstant
    split
    · cases type? with
      | none => exact .refl
      | some t =>
        refine Context.Reaches.bind (x := lift t.toTy) (Steps.of_asks (.toTy t) c h) fun ty c' hc => ?_
        have h' : c'.moduleScope < c'.scopes.size :=
          hc.moduleScope_eq ▸ Nat.lt_of_lt_of_le h hc.size_le
        exact ((value.check_steps c'.moduleScope).bind fun _ => .ite (.pure _) (.fail _ _)) c' h'
    · exact .refl
  | mutable name type? value span => exact .refl
  | entry body span =>
    have hentry : Steps c.moduleScope (openScope .procedure c.moduleScope >>= fun scope =>
        body.check scope >>= fun e => get >>= fun c' =>
          pure (Typed.Item.entry ⟨scope, [], e.ty, e, c'.scopes.rootCount scope, span⟩)) :=
      .opened _ fun inner _ =>
        (body.check_steps inner).bind fun _ => Steps.get.bind fun _ => .pure _
    have hrun := hentry c h
    simp only [check, checkEntry, bind_assoc, pure_bind]
    exact hrun

theorem checkAll_reaches (items : List Item) {c : Context} (h : c.moduleScope < c.scopes.size) :
    c.Reaches (.after (checkAll items c)) := by
  induction items generalizing c with
  | nil => exact .refl
  | cons item more ih =>
    refine (item.check_reaches h).bind fun ti c' hc =>
      Context.Reaches.bind (ih ?_) fun _ _ _ => .refl
    exact hc.moduleScope_eq ▸ Nat.lt_of_lt_of_le h hc.size_le

end Item

/-- Every check of a module leaves a context that the compilation can go on from: before the first
item, after some of them and where one is refused. -/
theorem Module.reachable_checkAll (declared checked : List Item) :
    (Context.after (Item.checkAll checked
      (.after (Item.declareAll declared .initial)))).Reachable := by
  have hd : Context.Reachable (.after (Item.declareAll declared .initial)) :=
    Item.declareAll_steps declared 0 _ (by decide)
  exact hd.trans (Item.checkAll_reaches checked hd.wellFormed.home)

end RootedC
