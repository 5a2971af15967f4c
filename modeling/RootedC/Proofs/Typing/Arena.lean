import RootedC.Proofs.Outcome
import RootedC.Proofs.Typing.ScopeStack

/-!
Checking on the tree of scopes and passing over a stack of frames give the same typed programs, or
both refuse.
-/
namespace RootedC.Lexical
open ScopeTree

/-- Where an activation stands: the scopes around it, the top-level types and the module scope. -/
structure Site where
  outer : List (Nat × Scope)
  globals : Bindings Ty
  home : Nat

def Site.outside (site : Site) : Outside where
  globals := site.globals
  depth := site.outer.length
  binds name := (findStacked name 0 site.outer).isSome

/-- The tree of scopes holds an activation whose own scopes have the numbers `ids`. -/
structure Shows (site : Site) (ids : List Nat) (c : Context) (a : Activation) : Prop where
  size : c.scopes.size = a.next
  globals : c.globals = site.globals
  home : c.moduleScope = site.home
  ids : a.frames.map Frame.scope = ids
  linked : c.scopes.Linked (stack a.slots site.outer a.frames)

namespace Shows
variable {site : Site} {scope : Nat} {rest : List Nat} {c : Context} {a : Activation}

theorem frames_eq (h : Shows site (scope :: rest) c a) :
    ∃ f more, a.frames = f :: more ∧ f.scope = scope ∧ more.map Frame.scope = rest := by
  have hi := h.ids
  cases hf : a.frames with
  | nil => simp [hf] at hi
  | cons f more =>
    rw [hf, List.map_cons, List.cons.injEq] at hi
    exact ⟨f, more, rfl, hi⟩

theorem stack_eq (h : Shows site (scope :: rest) c a) :
    ∃ s more, stack a.slots site.outer a.frames = (scope, s) :: more := by
  obtain ⟨f, more, hf, rfl, -⟩ := h.frames_eq
  obtain ⟨s, hs, -⟩ := stack_cons a.slots site.outer f more
  exact ⟨s, _, hf ▸ hs⟩

theorem find?_eq (h : Shows site (scope :: rest) c a) (name : String) :
    c.scopes.find? scope name =
      (Frame.find name 0 a.frames).or (findStacked name a.frames.length site.outer) := by
  obtain ⟨s, more, hs⟩ := h.stack_eq
  have hl := h.linked
  rw [hs] at hl
  rw [hl.find?, ← hs, findStacked_stack, Nat.zero_add]

theorem depth_eq (h : Shows site (scope :: rest) c a) :
    c.scopes.depth scope = site.outside.depth + a.frames.length - 1 := by
  obtain ⟨s, more, hs⟩ := h.stack_eq
  have hl := h.linked
  rw [hs] at hl
  have hn := congrArg List.length hs
  rw [length_stack, List.length_cons] at hn
  rw [hl.depth]
  simp only [Site.outside]
  omega

theorem activation?_of_suffix (h : Shows site (scope :: rest) c a) {inner more : List Frame}
    {f : Frame} (hf : a.frames = inner ++ f :: more) :
    c.scopes.activation? f.scope = (scope :: rest).getLast? := by
  have hl := h.linked
  rw [hf] at hl
  obtain ⟨before, hb⟩ := stack_suffix a.slots site.outer inner (f :: more)
  rw [← hb] at hl
  obtain ⟨s, hs, -⟩ := stack_cons a.slots site.outer f more
  have hl := hl.suffix
  obtain ⟨p, hp, hlast, -⟩ := find_procedure_stack a.slots site.outer f more
  rw [hs] at hl hp
  rw [hl.activation?, hp, ← h.ids, hf, List.map_append, List.getLast?_append, hlast]
  rfl

theorem activation?_self (h : Shows site (scope :: rest) c a) :
    c.scopes.activation? scope = (scope :: rest).getLast? := by
  obtain ⟨f, more, hf, rfl, -⟩ := h.frames_eq
  exact h.activation?_of_suffix (show a.frames = [] ++ f :: more from hf)

theorem activation?_outer (h : Shows site (scope :: rest) c a) {inner more : List (Nat × Scope)}
    {p : Nat × Scope} (hp : site.outer = inner ++ p :: more) :
    c.scopes.activation? p.1 ≠ (scope :: rest).getLast? := by
  obtain ⟨before, hb⟩ := outer_suffix_stack a.slots site.outer a.frames
  have hl := h.linked
  rw [← hb, hp] at hl
  rw [hl.suffix.suffix.activation?]
  intro he
  cases hfind : (p :: more).find? fun q => q.2.kind = .procedure with
  | none =>
    rw [show ((p.1, p.2) :: more) = p :: more from rfl, hfind] at he
    simp [List.getLast?_cons] at he
  | some q =>
    rw [show ((p.1, p.2) :: more) = p :: more from rfl, hfind] at he
    have hq : q ∈ site.outer := by
      rw [hp]
      exact List.mem_append_right _ (List.mem_of_find?_eq_some hfind)
    have hbase : q.1 ∈ a.frames.map Frame.scope := by
      rw [h.ids]
      exact List.mem_of_getLast? he.symm
    obtain ⟨f, hf, hfq⟩ := List.mem_map.mp hbase
    have hlt := outer_lt_of_linked h.linked hf hq
    omega

theorem defined (h : Shows site (scope :: rest) c a) {id : Nat} (hid : id ∈ scope :: rest)
    (name : String) (ty : Ty) :
    Shows site (scope :: rest) { c with scopes := c.scopes.define id name ty }
      { a with frames := a.frames.map (Frame.define id name ty) } := by
  rw [← h.ids] at hid
  obtain ⟨f, hf, rfl⟩ := List.mem_map.mp hid
  refine ⟨?_, h.globals, h.home, ?_, ?_⟩
  · simpa [ScopeTree.define, ScopeTree.size] using h.size
  · rw [← h.ids, List.map_map]
    apply List.map_congr_left
    intro g _
    simp only [Function.comp_apply, Frame.define]
    split <;> rfl
  · have ho : ∀ p ∈ site.outer, p.1 < f.scope := fun p hp => outer_lt_of_linked h.linked hf hp
    have hl := linked_update h.linked f.scope
      (fun s => { s with bindings := s.bindings.bind name ty }) fun _ => rfl
    rw [map_update_define ho] at hl
    exact hl

theorem slotTaken (h : Shows site (scope :: rest) c a) :
    ∃ t, c.scopes.takeRootSlot? scope = some (a.slots, t) ∧
      Shows site (scope :: rest) { c with scopes := t } { a with slots := a.slots + 1 } := by
  obtain ⟨f, more, hf, hscope, -⟩ := h.frames_eq
  obtain ⟨s, hs, -, hk, -⟩ := stack_cons a.slots site.outer f more
  obtain ⟨p, hp, hlast, hslots⟩ := find_procedure_stack a.slots site.outer f more
  rw [← hf, h.ids] at hlast
  rw [← hf] at hs hp
  have hget : c.scopes.get? scope = some s := by
    have hm : (f.scope, s) ∈ stack a.slots site.outer a.frames := by simp [hs]
    exact hscope ▸ h.linked.get? hm
  have howner : c.scopes.slotOwner? scope = some p.1 := by
    rw [slotOwner?, hget, Option.map_some, hk, ← hlast, ← h.activation?_self]
    by_cases hm : more = [] <;> simp [hm]
  have hat : c.scopes.rootSlotsAt p.1 = a.slots := by
    rw [rootSlotsAt, h.linked.get? (List.mem_of_find?_eq_some hp), Option.map_some, hslots]
    rfl
  refine ⟨_, by rw [takeRootSlot?, howner, Option.map_some, hat], ?_⟩
  refine ⟨?_, h.globals, h.home, h.ids, ?_⟩
  · simpa [ScopeTree.size] using h.size
  · have hl := linked_update h.linked p.1 (fun s => { s with rootSlots := s.rootSlots + 1 })
      fun _ => rfl
    rw [map_update_slot (h.ids ▸ hlast) h.linked] at hl
    exact hl

theorem letOpened (h : Shows site (scope :: rest) c a) :
    Shows site (a.next :: scope :: rest)
      { c with scopes := (c.scopes.create .letIn (some scope)).2 }
      { a with frames := ⟨a.next, []⟩ :: a.frames, next := a.next + 1 } := by
  obtain ⟨f, more, hf, rfl, -⟩ := h.frames_eq
  refine ⟨by simp [h.size], h.globals, h.home, by simp [h.ids], ?_⟩
  have hold : (c.scopes.create .letIn (some f.scope)).2.Linked
      (stack a.slots site.outer a.frames) :=
    h.linked.of_get? fun p hp => get?_create _ _ (h.linked.get? hp)
  rw [hf] at hold ⊢
  obtain ⟨s, hs, -⟩ := stack_cons a.slots site.outer f more
  refine ⟨?_, ?_, ?_, hold⟩
  · rw [← h.size]
    exact get?_create_self _ _ _
  · simp [hs]
  · intro p hp
    rw [← h.size]
    exact lt_size_of_get? (h.linked.get? (hf ▸ hp))

theorem letClosed {inner : Nat} (h : Shows site (inner :: scope :: rest) c a) :
    Shows site (scope :: rest) c { a with frames := a.frames.tail } := by
  obtain ⟨f, more, hf, -, hm⟩ := h.frames_eq
  have hl := h.linked
  obtain ⟨s, hs, -⟩ := stack_cons a.slots site.outer f more
  rw [hf, hs] at hl
  refine ⟨h.size, h.globals, h.home, ?_, ?_⟩
  · simp [hf, hm]
  · simpa [hf] using hl.2.2.2

end Shows

/-- A lexical name stands in one of the activation's own scopes. -/
def Located (ids : List Nat) : Typed.Expr → Prop
  | .name _ _ _ (.lexical scope) => scope ∈ ids
  | _ => True

namespace Shows
variable {site : Site} {scope : Nat} {rest : List Nat} {c : Context} {a : Activation}

theorem mem_of_find (h : Shows site (scope :: rest) c a) {name : String} {r : BindingSite}
    (hr : Frame.find name 0 a.frames = some r) : r.scope ∈ scope :: rest := by
  obtain ⟨inner, f, outer, hf, hs⟩ := find_split hr
  rw [← h.ids, hf, hs]
  simp

/-- A name of the activation itself may be used, one of an activation around it may not. -/
theorem sameActivation_iff (h : Shows site (scope :: rest) c a) {name : String} {r : BindingSite}
    (hr : c.scopes.find? scope name = some r) :
    c.scopes.activation? scope = c.scopes.activation? r.scope ↔
      Frame.find name 0 a.frames = some r := by
  rw [h.find?_eq] at hr
  rw [h.activation?_self]
  cases hf : Frame.find name 0 a.frames with
  | some s =>
    rw [hf, Option.some_or, Option.some.injEq] at hr
    subst hr
    obtain ⟨inner, f, outer, hframes, hs⟩ := find_split hf
    simp [hs, h.activation?_of_suffix hframes]
  | none =>
    rw [hf, Option.none_or] at hr
    obtain ⟨inner, p, outer, hp, hs⟩ := findStacked_split hr
    have hne := h.activation?_outer hp
    rw [← hs] at hne
    simp [Ne.symm hne]

theorem find?_eq_none_iff (h : Shows site (scope :: rest) c a) (name : String) :
    c.scopes.find? scope name = none ↔
      Frame.find name 0 a.frames = none ∧ site.outside.binds name = false := by
  have hb : site.outside.binds name = (findStacked name a.frames.length site.outer).isSome :=
    isSome_findStacked name _ _ site.outer
  rw [h.find?_eq, Option.or_eq_none_iff, hb]
  simp

end Shows

/-- Both a check on the tree and a pass over the stack give a value, or both fail. -/
inductive Matches {α τ : Type} (S : α → Context → τ → Prop) :
    EStateM.Result Diagnostic Context α → Option (α × τ) → Prop
  | ok {v : α} {c : Context} {a : τ} (h : S v c a) : Matches S (.ok v c) (some (v, a))
  | failed {d : Diagnostic} {c : Context} : Matches S (.error d c) none

section Matching
variable {α τ : Type} {S : α → Context → τ → Prop}
  {r : EStateM.Result Diagnostic Context α} {o : Option (α × τ)}

theorem Matches.of_ok (v : α) {c : Context} {a : τ} (h : S v c a) (hr : r = .ok v c)
    (ho : o = some (v, a)) : Matches S r o := by
  rw [hr, ho]
  exact .ok h

theorem Matches.exists_eq_some (h : Matches S r o) {v : α} {c : Context} (hr : r = .ok v c) :
    ∃ a, o = some (v, a) ∧ S v c a := by
  cases h with
  | ok hS =>
    cases hr
    exact ⟨_, rfl, hS⟩
  | failed => cases hr

theorem Matches.of_error (hr : ∃ d c, r = .error d c) (ho : o = none) : Matches S r o := by
  obtain ⟨d, c, rfl⟩ := hr
  rw [ho]
  exact .failed

end Matching

/-- A check and a pass that are started in states related by `R` match. -/
def Agrees {α τ : Type} (R : Context → τ → Prop) (S : α → Context → τ → Prop)
    (x : Check α) (y : StateT τ Option α) : Prop :=
  ∀ c a, R c a → Matches S (x c) (y a)

/-- Only a name of unknown type gets one. -/
theorem Pass.fillHole_of_ne {expected : Ty} {e : Typed.Expr}
    (h : ∀ root? span name level scope,
      e ≠ .name ⟨.hole, root?, span⟩ name level (.lexical scope)) :
    Pass.fillHole expected e = pure e := by
  unfold Pass.fillHole
  split
  · exact absurd rfl (h _ _ _ _ _)
  · rfl

namespace Agrees
variable {α β : Type} {R : Context → Activation → Prop} {S S' : α → Context → Activation → Prop}
  {T : β → Context → Activation → Prop} {x : Check α} {y : Pass α} {f : α → Check β}
  {g : α → Pass β}

theorem bind (hx : Agrees R S x y) (hf : ∀ v, Agrees (S v) T (f v) (g v)) :
    Agrees R T (x >>= f) (y >>= g) := by
  intro c a h
  have hxc := hx c a h
  have hy : (y >>= g) a = (y a).bind fun p => g p.1 p.2 := rfl
  rw [bind_run, hy]
  generalize x c = r at hxc ⊢
  generalize y a = o at hxc ⊢
  cases hxc with
  | ok hs => exact hf _ _ _ hs
  | failed => exact .failed

theorem mono (hx : Agrees R S x y) (hs : ∀ v c a, S v c a → S' v c a) : Agrees R S' x y := by
  intro c a h
  have hxc := hx c a h
  generalize x c = r at hxc ⊢
  generalize y a = o at hxc ⊢
  cases hxc with
  | ok hv => exact .ok (hs _ _ _ hv)
  | failed => exact .failed

theorem forget {P : α → Prop} (hx : Agrees R (fun v c a => S v c a ∧ P v) x y) :
    Agrees R S x y :=
  hx.mono fun _ _ _ h => h.1

theorem pure (v : α) (h : ∀ c a, R c a → S v c a) :
    Agrees R S (Pure.pure v : Check α) (Pure.pure v : Pass α) :=
  fun c a hr => .ok (h c a hr)

theorem fail (cause : Cause) (position : Position) :
    Agrees R S (Check.fail cause position : Check α) (failure : Pass α) :=
  fun _ _ _ => .failed

theorem fail_bind (cause : Cause) (position : Position) (k : α → Check β) :
    Agrees R T (Check.fail cause position >>= k) (failure : Pass β) :=
  fun _ _ _ => .failed

theorem weaken {R' : Context → Activation → Prop} (hx : Agrees R S x y)
    (hr : ∀ c a, R' c a → R c a) : Agrees R' S x y :=
  fun c a h => hx c a (hr c a h)

/-- A condition that one side tests and the other requires. -/
theorem guard {b : Bool} {z : Check α} (hx : b = true → Agrees R S x y)
    (hz : Agrees R S z failure) :
    Agrees R S (if b then x else z) (Pass.require b >>= fun _ => y) := by
  intro c a h
  cases b with
  | true => exact hx rfl c a h
  | false => exact hz c a h

theorem expectTy (expected received : Ty) (position : Position) :
    Agrees R (fun _ => R) (Check.expectTy expected received position)
      (Pass.require (expected.agrees received)) := by
  intro c a h
  unfold Check.expectTy Pass.require
  cases expected.agrees received with
  | true => exact .ok h
  | false => exact .failed

/-- A written type that the type found has to agree with. -/
theorem written (hx : Agrees R S x y) (t : TypeExpr) (ty : Ty) (position : Position) :
    Agrees R S
      (Check.lift t.toTy >>= fun declared => Check.expectTy declared ty position >>= fun _ => x)
      (Pass.require ((some t).all fun t => t.toTy.toOption.any (·.agrees ty)) >>= fun _ => y) := by
  intro c a h
  cases ht : t.toTy with
  | error d =>
    rw [Option.all_some, ht]
    exact .failed
  | ok declared =>
    rw [Option.all_some, ht]
    exact ((expectTy declared ty position).bind fun _ => hx) c a h

theorem lift (z : Except Diagnostic α) :
    Agrees R (fun _ => R) (Check.lift z) (Pass.lift z) := by
  intro c a h
  cases z with
  | ok v => exact .ok h
  | error d => exact .failed

section Primitives
variable {site : Site} {scope : Nat} {rest : List Nat}

theorem define {id : Nat} (hid : id ∈ scope :: rest) (name : String) (ty : Ty) :
    Agrees (Shows site (scope :: rest)) (fun _ => Shows site (scope :: rest))
      (Check.define id name ty) (Pass.define id name ty) :=
  fun _ _ h => .ok (h.defined hid name ty)

theorem rootFor (ty : Ty) (position : Position) :
    Agrees (Shows site (scope :: rest)) (fun _ => Shows site (scope :: rest))
      (Check.rootFor ty scope position) (Pass.rootFor ty) := by
  intro c a h
  cases hty : ty.mayBeHeap with
  | false =>
    exact .of_ok none h (by simp [Check.rootFor, hty, pure_run]) (by simp [Pass.rootFor, hty])
  | true =>
    obtain ⟨t, ht, hs⟩ := h.slotTaken
    exact .of_ok (some a.slots) hs (by simp [Check.rootFor, hty, ht]) (by simp [Pass.rootFor, hty])

theorem openLet :
    Agrees (Shows site (scope :: rest)) (fun inner => Shows site (inner :: scope :: rest))
      (Check.openScope .letIn scope) Pass.openLet := by
  intro c a h
  have hs := h.letOpened
  rw [Pass.openLet, ← h.size]
  rw [← h.size] at hs
  exact .ok hs

theorem fillHole (expected : Ty) (operand : Typed.Expr) :
    Agrees (fun c a => Shows site (scope :: rest) c a ∧ Located (scope :: rest) operand)
      (fun _ => Shows site (scope :: rest))
      (Check.fillHole expected operand) (Pass.fillHole expected operand) := by
  rintro c a ⟨h, hl⟩
  unfold Check.fillHole
  split
  · exact .ok (h.defined hl _ _)
  · next hne => exact .of_ok operand h rfl (congrFun (Pass.fillHole_of_ne hne) a)

theorem checkName (name : String) (span : Span) :
    Agrees (Shows site (scope :: rest))
      (fun e c a => Shows site (scope :: rest) c a ∧ Located (scope :: rest) e)
      (Check.checkName scope name span) (Pass.checkName site.outside name span) := by
  intro c a h
  have hn := h.find?_eq_none_iff name
  simp only [Check.checkName, Context.find?, bind_run, get_run, Pass.checkName]
  cases hr : c.scopes.find? scope name with
  | some r =>
    have hsame := h.sameActivation_iff hr
    cases hf : Frame.find name 0 a.frames with
    | some s =>
      have : s = r := by
        rw [h.find?_eq, hf] at hr
        simpa using hr
      subst this
      simp only [Check.sameActivation, bind_run, get_run, if_pos (hsame.mpr hf), pure_run]
      cases s.ty.isProcedure with
      | true => exact .failed
      | false => exact .ok ⟨h, h.mem_of_find hf⟩
    | none =>
      have hb : site.outside.binds name = true := by
        by_contra hb
        simp [hn.mpr ⟨hf, by simpa using hb⟩] at hr
      have hne := mt hsame.mp (by simp [hf])
      simp only [Check.sameActivation, bind_run, get_run, if_neg hne, hb, if_true]
      exact .failed
  | none =>
    obtain ⟨hf, hb⟩ := hn.mp hr
    have hglobals : site.outside.globals = c.globals := h.globals.symm
    simp only [hf, hb, hglobals, ← h.depth_eq]
    cases c.globals.get? name with
    | some ty =>
      cases hp : ty.isProcedure with
      | true => exact .of_error (by simp [hp, Check.fail]) (by simp [hp])
      | false =>
        have hl : Located (scope :: rest)
            (.name ⟨ty, none, span⟩ name (c.scopes.depth scope) .global) := trivial
        exact .of_ok _ ⟨h, hl⟩ (by simp [hp, pure_run]) (by simp [hp])
    | none => cases Builtin.find? name <;> exact .failed

theorem checkCalleeName (name : String) (span : Span) :
    Agrees (Shows site (scope :: rest)) (fun _ => Shows site (scope :: rest))
      (Check.checkCalleeName scope name span) (Pass.checkCalleeName site.outside name) := by
  intro c a h
  have hn := h.find?_eq_none_iff name
  simp only [Check.checkCalleeName, bind_run, get_run, Pass.checkCalleeName]
  cases hr : c.scopes.find? scope name with
  | some r =>
    have hseen : ((Frame.find name 0 a.frames).isSome || site.outside.binds name) = true := by
      by_contra hs
      simp [hn.mpr (by simpa using hs)] at hr
    simp only [hseen, if_true, Check.sameActivation, bind_run, get_run]
    by_cases hsame : c.scopes.activation? scope = c.scopes.activation? r.scope
    · simp only [hsame, if_true, pure_run]
      cases r.ty.isProcedure <;> exact .failed
    · simp only [hsame, if_false]
      exact .failed
  | none =>
    obtain ⟨hf, hb⟩ := hn.mp hr
    have hglobals : site.outside.globals = c.globals := h.globals.symm
    simp only [hf, hb, hglobals]
    cases c.globals.get? name with
    | some ty =>
      cases hp : ty.isProcedure with
      | true => exact .of_ok (.global name, ty) h (by simp [hp, pure_run]) (by simp [hp])
      | false => exact .of_error (by simp [hp, Check.fail]) (by simp [hp])
    | none =>
      cases Builtin.find? name with
      | some b => exact .of_ok (.builtin name, b.ty) h rfl rfl
      | none => exact .failed

theorem closeLet {inner : Nat} {e : Typed.Expr} (he : Located (scope :: rest) e) :
    Agrees (fun c a => Shows site (inner :: scope :: rest) c a)
      (fun e c a => Shows site (scope :: rest) c a ∧ Located (scope :: rest) e)
      (Pure.pure e : Check Typed.Expr) (Pass.closeLet >>= fun _ => Pure.pure e) :=
  fun _ _ h => .of_ok e ⟨h.letClosed, he⟩ rfl rfl

theorem checkCount (arguments : List Expr) (expected : Nat) (stop : Position) :
    Agrees (Shows site (scope :: rest)) (fun _ => Shows site (scope :: rest))
      (Check.checkCount arguments expected stop) (Pass.require (arguments.length == expected)) := by
  intro c a h
  unfold Check.checkCount
  rcases Nat.lt_trichotomy arguments.length expected with hlt | heq | hgt
  · have hn : arguments[expected]? = none := List.getElem?_eq_none (Nat.le_of_lt hlt)
    rw [hn]
    refine .of_error ⟨_, _, by simp only [if_pos hlt]; rfl⟩ ?_
    simp [Pass.require, Nat.ne_of_lt hlt]
  · have hn : arguments[expected]? = none := List.getElem?_eq_none (Nat.le_of_eq heq)
    rw [hn]
    refine .of_ok () h (by simp [heq, pure_run]) ?_
    simp [Pass.require, heq]
  · rw [List.getElem?_eq_getElem hgt]
    refine .of_error ⟨_, _, rfl⟩ ?_
    simp [Pass.require, Nat.ne_of_gt hgt]

end Primitives

end Agrees

/-- The tree of scopes holds the scopes around a place, and its next scope has a given number. -/
structure Holds (site : Site) (c : Context) (next : Nat) : Prop where
  size : c.scopes.size = next
  globals : c.globals = site.globals
  home : c.moduleScope = site.home
  linked : c.scopes.Linked site.outer

/-- The scopes of an activation are around the procedures written in it. -/
def Site.enter (site : Site) (a : Activation) : Site :=
  { site with outer := stack a.slots site.outer a.frames }

theorem Site.outside_enter (site : Site) (a : Activation) :
    (site.enter a).outside = site.outside.enter a.frames := by
  have hb (name : String) : (findStacked name 0 (stack a.slots site.outer a.frames)).isSome =
      ((Frame.find name 0 a.frames).isSome || (findStacked name 0 site.outer).isSome) := by
    rw [findStacked_stack, Option.isSome_or, isSome_findStacked name _ 0]
  simp only [Site.outside, Site.enter, Outside.enter, length_stack, hb, Nat.add_comm]

theorem Shows.holds {site : Site} {ids : List Nat} {c : Context} {a : Activation}
    (h : Shows site ids c a) : Holds (site.enter a) c a.next :=
  ⟨h.size, h.globals, h.home, h.linked⟩

theorem Shows.left {site : Site} {ids : List Nat} {c : Context} {a : Activation}
    (h : Shows site ids c a) : Holds site c a.next := by
  obtain ⟨before, hb⟩ := outer_suffix_stack a.slots site.outer a.frames
  refine ⟨h.size, h.globals, h.home, ?_⟩
  have hl := h.linked
  rw [← hb] at hl
  exact hl.suffix

theorem Shows.of_holds {site : Site} {ids : List Nat} {c c' : Context} {a : Activation} {n : Nat}
    (h : Shows site ids c a) (h' : Holds (site.enter a) c' n) :
    Shows site ids c' { a with next := n } :=
  ⟨h'.size, h'.globals, h'.home, h.ids, h'.linked⟩

/-- A list of parameters is accepted if no name in it is repeated or was seen before. -/
theorem checkDistinct_run (seen : List String) (ps : List Parameter) (c : Context) :
    if (ps.map (·.name)).Nodup ∧ ∀ n ∈ ps.map (·.name), n ∉ seen then
      Check.checkDistinct seen ps c = .ok () c
    else ∃ d, Check.checkDistinct seen ps c = .error d c := by
  induction ps generalizing seen with
  | nil => simp [Check.checkDistinct, pure_run]
  | cons p more ih =>
    by_cases hp : p.name ∈ seen
    · rw [if_neg (by simp [hp])]
      exact ⟨_, by rw [Check.checkDistinct, if_pos hp]; rfl⟩
    · have hr : Check.checkDistinct seen (p :: more) c =
          Check.checkDistinct (p.name :: seen) more c := by
        rw [Check.checkDistinct, if_neg hp]
      have hiff : ((p :: more).map (·.name)).Nodup ∧
          (∀ n ∈ (p :: more).map (·.name), n ∉ seen) ↔
          (more.map (·.name)).Nodup ∧ ∀ n ∈ more.map (·.name), n ∉ p.name :: seen := by
        rw [List.map_cons, List.nodup_cons, List.forall_mem_cons]
        simp only [List.mem_cons, not_or]
        constructor
        · rintro ⟨⟨hm, hnd⟩, -, hs⟩
          exact ⟨hnd, fun n hn => ⟨fun he => hm (he ▸ hn), hs n hn⟩⟩
        · rintro ⟨hnd, hs⟩
          exact ⟨⟨fun hm => (hs _ hm).1 rfl, hnd⟩, hp, fun n hn => (hs n hn).2⟩
      simp only [hr, hiff]
      exact ih (p.name :: seen)

theorem checkNoHole_run (ps : List (Parameter × Ty)) (c : Context) :
    if ps.any (fun p => p.2.isHole) then ∃ d, Check.checkNoHole ps c = .error d c
    else Check.checkNoHole ps c = .ok () c := by
  induction ps with
  | nil => simp [Check.checkNoHole, pure_run]
  | cons p more ih =>
    obtain ⟨p, ty⟩ := p
    cases hty : ty.isHole with
    | true =>
      rw [if_pos (by simp [hty])]
      exact ⟨_, by rw [Check.checkNoHole, if_pos hty]; rfl⟩
    | false =>
      have hr : Check.checkNoHole ((p, ty) :: more) c = Check.checkNoHole more c := by
        rw [Check.checkNoHole, if_neg (by simp [hty])]
      simp only [hr, List.any_cons, hty, Bool.false_or]
      exact ih

section Procedures
variable {site : Site} {c : Context} {a : Activation} {n scope : Nat}

theorem Holds.opened (h : Holds site c n) {parent : Nat}
    (hp : site.outer.head?.map Prod.fst = some parent) :
    Shows site [n] { c with scopes := (c.scopes.create .procedure (some parent)).2 }
      ⟨[⟨n, []⟩], 0, n + 1⟩ := by
  refine ⟨by simp [h.size], h.globals, h.home, rfl, ?_, rfl, ?_, ?_⟩
  · rw [hp, ← h.size]
    exact get?_create_self _ _ _
  · intro p hp
    rw [← h.size]
    exact lt_size_of_get? (h.linked.get? hp)
  · exact h.linked.of_get? fun p hp => get?_create _ _ (h.linked.get? hp)

theorem Shows.definedAll {bs : Bindings Ty} {k : Nat} (h : Shows site [scope] c ⟨[⟨scope, bs⟩], k, n⟩)
    (ps : List (String × Ty)) :
    ∃ c', Check.defineAll scope ps c = .ok () c' ∧
      Shows site [scope] c' ⟨[⟨scope, ps.foldl (fun bs p => bs.bind p.1 p.2) bs⟩], k, n⟩ := by
  induction ps generalizing bs c with
  | nil => exact ⟨c, rfl, h⟩
  | cons p more ih =>
    have hd := h.defined (List.mem_singleton_self scope) p.1 p.2
    simp only [List.map_cons, List.map_nil, Frame.define, if_true] at hd
    obtain ⟨c', hc, hs⟩ := ih hd
    exact ⟨c', hc, hs⟩

theorem Holds.openProcedure (h : Holds site c n) {parent : Nat}
    (hp : site.outer.head?.map Prod.fst = some parent) (ps : List (String × Ty)) :
    ∃ c', Check.openProcedure parent ps c = .ok n c' ∧
      Shows site [n] c' ⟨[.ofParameters n ps], 0, n + 1⟩ := by
  obtain ⟨c', hc, hs⟩ := (h.opened hp).definedAll ps
  refine ⟨c', ?_, hs⟩
  have ho : Check.openScope .procedure parent c =
      .ok n { c with scopes := (c.scopes.create .procedure (some parent)).2 } := by
    rw [← h.size]
    rfl
  simp only [Check.openProcedure, bind_run, ho, hc, pure_run]

theorem Shows.frames_single (h : Shows site [scope] c a) :
    ∃ bs, a.frames = [⟨scope, bs⟩] := by
  obtain ⟨f, more, hf, rfl, hm⟩ := h.frames_eq
  rw [List.map_eq_nil_iff.mp hm] at hf
  exact ⟨f.bindings, hf⟩

theorem Shows.foundTypes_eq (h : Shows site [scope] c a) (named : List (String × Ty)) :
    Check.foundTypes c scope named = foundTypes a.frames named := by
  obtain ⟨bs, hf⟩ := h.frames_single
  have hl := h.linked
  rw [hf] at hl
  have hlook (name : String) : c.scopes.lookup? scope name = bs.get? name := by
    simp [lookup?, hl.1]
  have hfind (name : String) :
      (Frame.find name 0 a.frames).map BindingSite.ty = bs.get? name := by
    rw [hf]
    cases hg : bs.get? name <;> simp [Frame.find, hg]
  induction named with
  | nil => rfl
  | cons p more ih =>
    rw [Check.foundTypes, ih, hlook]
    simp [foundTypes, hfind]

theorem Shows.rootCount_eq (h : Shows site [scope] c a) :
    c.scopes.rootCount scope = a.slots := by
  obtain ⟨bs, hf⟩ := h.frames_single
  have hl := h.linked
  rw [hf] at hl
  rw [rootCount, h.activation?_self]
  simp [rootSlotsAt, hl.1]

theorem Shows.closeProcedure (h : Shows site [scope] c a) (ps : List Parameter) (tys : List Ty)
    (result? : Option TypeExpr) (body : Typed.Expr) (span : Span) :
    Matches (fun _ c n => Holds site c n) (Check.closeProcedure ps tys result? scope body span c)
      (Lexical.closeProcedure ps tys result? scope body a span) := by
  have hn := checkNoHole_run (ps.zip tys) c
  unfold Check.closeProcedure Lexical.closeProcedure
  rw [bind_run]
  by_cases hh : (ps.zip tys).any (fun p => p.2.isHole) = true
  · rw [if_pos hh] at hn ⊢
    obtain ⟨d, hd⟩ := hn
    rw [hd]
    exact .failed
  · rw [if_neg hh] at hn ⊢
    rw [hn]
    cases result? with
    | none =>
      rw [if_pos (by simp)]
      exact .of_ok _ h.left (by simp [bind_run, get_run, pure_run, h.rootCount_eq]) rfl
    | some t =>
      cases ht : t.toTy with
      | error d =>
        refine .of_error ⟨d, c, ?_⟩ (by simp [ht, Except.toOption])
        simp [bind_run, Check.lift, ht, Check.fail]
      | ok declared =>
        cases hd : declared == body.ty with
        | true =>
          rw [if_pos (by simp [ht, Except.toOption, hd])]
          refine .of_ok _ h.left ?_ rfl
          simp only [bind_run, Check.lift, ht, hd, pure_run, if_true, get_run, h.rootCount_eq]
        | false =>
          refine .of_error ⟨⟨.mismatch declared.display body.ty.display, t.position⟩, c, ?_⟩
            (by simp [ht, Except.toOption, hd])
          simp [bind_run, Check.lift, ht, hd, pure_run, Check.fail]

end Procedures

/-- A literal that is called is checked in the scopes around the call. -/
theorem Agrees.literal {site : Site} {scope : Nat} {rest : List Nat} {literal : Procedure Expr}
    (hl : ∀ site : Site, site.outer.head?.map Prod.fst = some scope →
      Agrees (Holds site) (fun _ => Holds site) (literal.check scope)
        (fun n => checkProcedure site.outside n literal)) :
    Agrees (Shows site (scope :: rest)) (fun _ => Shows site (scope :: rest))
      (literal.check scope >>= fun p => Pure.pure (Typed.Callee.literal p, p.ty))
      (fun a => (checkProcedure (site.outside.enter a.frames) a.next literal).map fun r =>
        ((.literal r.1, r.1.ty), { a with next := r.2 })) := by
  intro c a h
  obtain ⟨s, more, hs⟩ := h.stack_eq
  have hm := hl (site.enter a) (by simp [Site.enter, hs]) c a.next h.holds
  rw [site.outside_enter] at hm
  rw [bind_run]
  beta_reduce at hm ⊢
  generalize literal.check scope c = r at hm ⊢
  generalize checkProcedure (site.outside.enter a.frames) a.next literal = o at hm ⊢
  cases hm with
  | ok h' => exact .ok (h.of_holds h')
  | failed => exact .failed

/-- Nothing but a literal or a name can be called. -/
theorem Agrees.refused {R : Context → Activation → Prop} {α β : Type}
    {S : α → Context → Activation → Prop} (x : Check Typed.Expr) (f : β → Check α)
    (g : β → Pass α) :
    Agrees R S (x >>= fun e => Check.refuseCallee e >>= f) (failure >>= g) := by
  intro c a _
  rw [bind_run]
  cases x c with
  | ok e c' =>
    cases hp : e.ty.isProcedure <;>
      exact .of_error ⟨_, c', by simp only [Check.refuseCallee, hp]; rfl⟩ rfl
  | error d c' => exact .failed

/-- What is checked of a call after the callee. -/
theorem Agrees.call {site : Site} {scope : Nat} {rest : List Nat} {arguments : List Expr}
    (ha : ∀ tys, Agrees (Shows site (scope :: rest)) (fun _ => Shows site (scope :: rest))
      (RootedC.checkArguments scope arguments tys) (checkArguments site.outside arguments tys))
    (callee : Typed.Callee Typed.Expr) (signature : Ty) (span : Span) :
    Agrees (Shows site (scope :: rest))
      (fun e c a => Shows site (scope :: rest) c a ∧ Located (scope :: rest) e)
      (match signature with
        | .proc parameters result => do
          Check.checkCount arguments parameters.length span.stop
          let arguments ← RootedC.checkArguments scope arguments parameters
          let root? ← Check.rootFor result scope span.start
          return .call ⟨result, root?, span⟩ callee arguments
        | other => Check.fail (.notCallable other.display) span.start)
      (match signature with
        | .proc parameters result => do
          Pass.require (arguments.length == parameters.length)
          let arguments ← checkArguments site.outside arguments parameters
          let root? ← Pass.rootFor result
          return .call ⟨result, root?, span⟩ callee arguments
        | _ => failure) := by
  cases signature with
  | proc parameters result =>
    refine (Agrees.checkCount _ _ _).bind fun _ => (ha parameters).bind fun arguments => ?_
    exact (Agrees.rootFor _ _).bind fun root? => .pure _ fun _ _ h => ⟨h, trivial⟩
  | _ => exact .fail _ _

/-- A procedure after the first pass over its body: either its holes are filled and the body is
checked once more, or the first pass is the only one. -/
theorem Shows.finish {site : Site} {parent n : Nat} {c : Context} {a : Activation}
    (h : Shows site [n] c a) (hp : site.outer.head?.map Prod.fst = some parent) {body : Expr}
    (hagain : ∀ c a scope, Shows site [scope] c a →
      Matches (fun te c a => Shows site [scope] c a ∧ Located [scope] te) (body.check scope c)
        (check site.outside body a))
    (parameters : List Parameter) (written : List Ty) (result? : Option TypeExpr)
    (first : Typed.Expr) (span : Span) :
    Matches (fun _ => Holds site)
      ((let found := Check.foundTypes c n ((parameters.map (·.name)).zip written)
        if Check.anyFilled written found then do
          let second ← Check.openProcedure parent ((parameters.map (·.name)).zip found)
          let secondBody ← body.check second
          Check.closeProcedure parameters found result? second secondBody span
        else Check.closeProcedure parameters written result? n first span) c)
      (let found := foundTypes a.frames ((parameters.map (·.name)).zip written)
        if Check.anyFilled written found then
          (check site.outside body ⟨[.ofParameters a.next ((parameters.map (·.name)).zip found)], 0,
            a.next + 1⟩).bind fun second =>
              Lexical.closeProcedure parameters found result? a.next second.1 second.2 span
        else Lexical.closeProcedure parameters written result? n first a span) := by
  simp only [h.foundTypes_eq]
  by_cases hf : Check.anyFilled written
      (foundTypes a.frames ((parameters.map (·.name)).zip written)) = true
  · simp only [hf, if_true]
    obtain ⟨c₂, hc₂, hs₂⟩ := h.left.openProcedure hp ((parameters.map (·.name)).zip
      (foundTypes a.frames ((parameters.map (·.name)).zip written)))
    have hbody := hagain c₂ _ _ hs₂
    simp only [bind_run, hc₂]
    generalize body.check a.next c₂ = r at hbody ⊢
    generalize check site.outside body _ = o at hbody ⊢
    cases hbody with
    | failed => exact .failed
    | ok h₂ => exact h₂.1.closeProcedure _ _ _ _ _
  · simp only [hf]
    exact h.closeProcedure _ _ _ _ _

mutual

theorem check_agrees {site : Site} {scope : Nat} {rest : List Nat} :
    ∀ e : Expr, Agrees (Shows site (scope :: rest))
      (fun te c a => Shows site (scope :: rest) c a ∧ Located (scope :: rest) te)
      (e.check scope) (check site.outside e)
  | .number _ _ => by
    rw [Expr.check, check]
    exact .pure _ fun _ _ h => ⟨h, trivial⟩
  | .text _ _ => by
    rw [Expr.check, check]
    exact .pure _ fun _ _ h => ⟨h, trivial⟩
  | .boolean _ _ => by
    rw [Expr.check, check]
    exact .pure _ fun _ _ h => ⟨h, trivial⟩
  | .unit _ => by
    rw [Expr.check, check]
    exact .pure _ fun _ _ h => ⟨h, trivial⟩
  | .name name span => by
    rw [Expr.check, check]
    exact .checkName name span
  | .unary operator operand span => by
    rw [Expr.check, check]
    cases UnaryOp.ofKind? operator.kind with
    | none => exact .fail _ _
    | some op =>
      refine (check_agrees operand).bind fun te => (Agrees.fillHole op.ty te).bind fun te' => ?_
      exact .guard (fun _ => .pure _ fun _ _ h => ⟨h, trivial⟩) (.fail _ _)
  | .binary left operator right span => by
    rw [Expr.check, check]
    cases BinaryOp.ofKind? operator.kind with
    | none => exact .fail _ _
    | some op =>
      refine (check_agrees left).forget.bind fun l => (check_agrees right).forget.bind fun r => ?_
      refine (Agrees.expectTy _ _ _).bind fun _ => ?_
      exact .guard (fun _ => .pure _ fun _ _ h => ⟨h, trivial⟩) (.fail _ _)
  | .call callee arguments span => by
    cases callee with
    | procedure literal =>
      rw [Expr.check, check, ← bind_assoc]
      exact (Agrees.literal fun site hp => checkProcedure_agrees hp literal).bind fun v =>
        .call (checkArguments_agrees arguments) v.1 v.2 span
    | name name nameSpan =>
      rw [Expr.check, check]
      exact (Agrees.checkCalleeName name nameSpan).bind fun v =>
        .call (checkArguments_agrees arguments) v.1 v.2 span
    | _ =>
      simp only [Expr.check, check]
      exact .refused _ _ _
  | .branch condition thenArm elseArm? span => by
    rw [Expr.check, check]
    refine (check_agrees condition).forget.bind fun te => (Agrees.expectTy _ _ _).bind fun _ => ?_
    refine (check_agrees thenArm).forget.bind fun t => ?_
    cases elseArm? with
    | some elseArm =>
      refine (check_agrees elseArm).forget.bind fun e => (Agrees.expectTy _ _ _).bind fun _ => ?_
      exact .pure _ fun _ _ h => ⟨h, trivial⟩
    | none =>
      refine (Agrees.pure (S := fun _ => Shows site (scope :: rest)) _ fun _ _ h => h).bind
        fun e => (Agrees.expectTy _ _ _).bind fun _ => ?_
      exact .pure _ fun _ _ h => ⟨h, trivial⟩
  | .letIn declarations body span => by
    rw [Expr.check, check]
    refine Agrees.openLet.bind fun inner => ?_
    refine (checkDeclarations_agrees declarations).bind fun ds => ?_
    refine (check_agrees body).forget.bind fun te => (Agrees.rootFor _ _).bind fun root? => ?_
    exact .closeLet trivial
  | .procedure literal => by
    rw [Expr.check, check]
    exact .fail _ _
  | .block body span => by
    rw [Expr.check, check]
    refine (checkAll_agrees body).bind fun body => ?_
    exact .pure _ fun _ _ h => ⟨h, trivial⟩

theorem checkAll_agrees {site : Site} {scope : Nat} {rest : List Nat} :
    ∀ es : List Expr, Agrees (Shows site (scope :: rest)) (fun _ => Shows site (scope :: rest))
      (RootedC.checkAll scope es) (checkAll site.outside es)
  | [] => by
    rw [RootedC.checkAll, checkAll]
    exact .pure _ fun _ _ h => h
  | e :: more => by
    rw [RootedC.checkAll, checkAll]
    refine (check_agrees e).forget.bind fun te => (checkAll_agrees more).bind fun tes => ?_
    exact .pure _ fun _ _ h => h

theorem checkArguments_agrees {site : Site} {scope : Nat} {rest : List Nat} :
    ∀ (es : List Expr) (tys : List Ty),
      Agrees (Shows site (scope :: rest)) (fun _ => Shows site (scope :: rest))
        (RootedC.checkArguments scope es tys) (checkArguments site.outside es tys)
  | [], _ => by
    simp only [RootedC.checkArguments, checkArguments]
    exact .pure _ fun _ _ h => h
  | _ :: _, [] => by
    simp only [RootedC.checkArguments, checkArguments]
    exact .pure _ fun _ _ h => h
  | e :: more, ty :: tys => by
    rw [RootedC.checkArguments, checkArguments]
    refine (check_agrees e).forget.bind fun te => .guard (fun _ => ?_) (.fail_bind _ _ _)
    refine (checkArguments_agrees more tys).bind fun tes => ?_
    exact .pure _ fun _ _ h => h

theorem checkDeclarations_agrees {site : Site} {scope : Nat} {rest : List Nat} :
    ∀ ds : List (Declaration Expr),
      Agrees (Shows site (scope :: rest)) (fun _ => Shows site (scope :: rest))
        (RootedC.checkDeclarations scope ds) (checkDeclarations site.outside scope ds)
  | [] => by
    rw [RootedC.checkDeclarations, checkDeclarations]
    exact .pure _ fun _ _ h => h
  | ⟨name, type?, value, span⟩ :: more => by
    rw [RootedC.checkDeclarations, checkDeclarations]
    refine (check_agrees value).forget.bind fun te => ?_
    have hrest : Agrees (Shows site (scope :: rest)) (fun _ => Shows site (scope :: rest)) _ _ :=
      (Agrees.define List.mem_cons_self name te.ty).bind fun _ =>
        (checkDeclarations_agrees more).bind fun tes =>
          .pure ((name, te) :: tes) fun _ _ h => h
    cases type? with
    | none => exact hrest
    | some t => exact hrest.written t te.ty span.start

theorem checkProcedure_agrees {site : Site} {parent : Nat}
    (hp : site.outer.head?.map Prod.fst = some parent) :
    ∀ literal : Procedure Expr, Agrees (Holds site) (fun _ => Holds site)
      (literal.check parent) (fun n => checkProcedure site.outside n literal)
  | ⟨parameters, result?, body, span⟩ => by
    intro c n h
    have hd := checkDistinct_run [] parameters c
    simp only [List.not_mem_nil, not_false_eq_true, implies_true, and_true] at hd
    beta_reduce
    rw [Procedure.check, checkProcedure, bind_run]
    by_cases hnodup : (parameters.map (·.name)).Nodup
    · rw [if_pos hnodup] at hd ⊢
      simp only [hd]
      cases hw : Check.writtenTypes parameters with
      | error d => exact .failed
      | ok written =>
        obtain ⟨c₁, hc₁, hs₁⟩ := h.openProcedure hp ((parameters.map (·.name)).zip written)
        have hbody := check_agrees body c₁ _ hs₁
        simp only [bind_run, Check.lift, pure_run, get_run, hc₁, Except.toOption,
          Option.bind_eq_bind, Option.bind_some]
        generalize body.check n c₁ = r at hbody ⊢
        generalize check site.outside body _ = o at hbody ⊢
        cases hbody with
        | failed => exact .failed
        | ok h₁ =>
          exact h₁.1.finish hp (fun c a scope h => check_agrees body c a h) parameters written
            result? _ span
    · rw [if_neg hnodup] at hd ⊢
      obtain ⟨d, hd⟩ := hd
      simp only [hd]
      exact .failed

end

end RootedC.Lexical
