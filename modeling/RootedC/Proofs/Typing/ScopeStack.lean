import Mathlib.Tactic.Common
import RootedC.Proofs.Typing.Lexical

/-!
The scopes around a place in the tree of scopes, as a stack. What the tree answers about a scope at
the top of such a stack (the meaning of a name, the activation, the depth) is read off the stack,
and the scopes of an activation make a stack with those around it.
-/
namespace RootedC

namespace ScopeTree

/-- Scopes that each stand in the next one, from the inside out. -/
def Linked (t : ScopeTree) : List (Nat × Scope) → Prop
  | [] => True
  | (id, s) :: outer =>
    t.get? id = some s ∧ s.parent? = outer.head?.map Prod.fst ∧ (∀ p ∈ outer, p.1 < id) ∧
      Linked t outer

theorem Linked.get? {t : ScopeTree} {stack : List (Nat × Scope)} (h : t.Linked stack)
    {p : Nat × Scope} (hp : p ∈ stack) : t.get? p.1 = some p.2 := by
  induction stack with
  | nil => simp at hp
  | cons q outer ih =>
    obtain ⟨hq, -, -, ho⟩ := h
    rcases List.mem_cons.mp hp with rfl | hp
    · exact hq
    · exact ih ho hp

theorem Linked.suffix {t : ScopeTree} {inner outer : List (Nat × Scope)}
    (h : t.Linked (inner ++ outer)) : t.Linked outer := by
  induction inner with
  | nil => exact h
  | cons p inner ih => exact ih h.2.2.2

/-- Links hold in every tree that has the same scopes at these places. -/
theorem Linked.of_get? {t u : ScopeTree} {stack : List (Nat × Scope)} (h : t.Linked stack)
    (hu : ∀ p ∈ stack, u.get? p.1 = some p.2) : u.Linked stack := by
  induction stack with
  | nil => trivial
  | cons p outer ih =>
    obtain ⟨-, hp, hlt, ho⟩ := h
    exact ⟨hu p (by simp), hp, hlt, ih ho fun q hq => hu q (by simp [hq])⟩

theorem Linked.length_le {t : ScopeTree} {id : Nat} {s : Scope} {outer : List (Nat × Scope)}
    (h : t.Linked ((id, s) :: outer)) : outer.length ≤ id := by
  induction outer generalizing id s with
  | nil => simp
  | cons p outer ih =>
    have hp : outer.length ≤ p.1 := ih h.2.2.2
    have hlt := h.2.2.1 p (by simp)
    simp only [List.length_cons]
    omega

theorem get?_create {t : ScopeTree} (kind : ScopeKind) (parent? : Option Nat) {id : Nat}
    {s : Scope} (h : t.get? id = some s) : (t.create kind parent?).2.get? id = some s := by
  unfold ScopeTree.get? at h ⊢
  have hlt := (Array.getElem?_eq_some_iff.mp h).1
  simp only [create, Array.getElem?_push_lt hlt]
  exact (Array.getElem?_eq_getElem hlt) ▸ h

theorem get?_create_self (t : ScopeTree) (kind : ScopeKind) (parent? : Option Nat) :
    (t.create kind parent?).2.get? t.size = some ⟨kind, [], 0, parent?⟩ := by
  simp [create, ScopeTree.get?, size]

@[simp] theorem size_create (t : ScopeTree) (kind : ScopeKind) (parent? : Option Nat) :
    (t.create kind parent?).2.size = t.size + 1 := by
  simp [create, size]

theorem lt_size_of_get? {t : ScopeTree} {id : Nat} {s : Scope} (h : t.get? id = some s) :
    id < t.size := by
  unfold ScopeTree.get? at h
  exact (Array.getElem?_eq_some_iff.mp h).1

theorem Linked.climb {t : ScopeTree} {id : Nat} {s : Scope} {outer : List (Nat × Scope)}
    (h : t.Linked ((id, s) :: outer)) {n : Nat} (hn : outer.length < n) :
    t.climb n id = id :: outer.map Prod.fst := by
  induction outer generalizing id s n with
  | nil =>
    obtain ⟨n, rfl⟩ := Nat.exists_eq_succ_of_ne_zero (by omega : n ≠ 0)
    have hp : t.parent? id = none := by simp [parent?, h.1, h.2.1]
    simp [ScopeTree.climb, hp]
  | cons p outer ih =>
    obtain ⟨n, rfl⟩ := Nat.exists_eq_succ_of_ne_zero (by omega : n ≠ 0)
    have hp : t.parent? id = some p.1 := by simp [parent?, h.1, h.2.1]
    have hc : t.climb n p.1 = p.1 :: outer.map Prod.fst :=
      ih h.2.2.2 (by simp only [List.length_cons] at hn; omega)
    simp [ScopeTree.climb, hp, hc]

theorem Linked.chain {t : ScopeTree} {id : Nat} {s : Scope} {outer : List (Nat × Scope)}
    (h : t.Linked ((id, s) :: outer)) : t.chain id = id :: outer.map Prod.fst := by
  apply h.climb
  have hl := h.length_le
  have hs := lt_size_of_get? h.1
  omega

/-- The first scope of a stack that binds a name. -/
def findStacked (name : String) : Nat → List (Nat × Scope) → Option BindingSite
  | _, [] => none
  | level, p :: outer =>
    match p.2.bindings.get? name with
    | some ty => some ⟨ty, level, p.1⟩
    | none => findStacked name (level + 1) outer

theorem Linked.findIn {t : ScopeTree} {stack : List (Nat × Scope)} (h : t.Linked stack)
    (name : String) (level : Nat) :
    t.findIn name level (stack.map Prod.fst) = findStacked name level stack := by
  induction stack generalizing level with
  | nil => rfl
  | cons p outer ih =>
    have hl : t.lookup? p.1 name = p.2.bindings.get? name := by
      simp [lookup?, h.1]
    rw [List.map_cons, ScopeTree.findIn, hl, findStacked]
    cases p.2.bindings.get? name with
    | none => exact ih h.2.2.2 (level + 1)
    | some ty => rfl

theorem Linked.find? {t : ScopeTree} {id : Nat} {s : Scope} {outer : List (Nat × Scope)}
    (h : t.Linked ((id, s) :: outer)) (name : String) :
    t.find? id name = findStacked name 0 ((id, s) :: outer) := by
  rw [ScopeTree.find?, h.chain]
  exact h.findIn name 0

theorem Linked.activation? {t : ScopeTree} {id : Nat} {s : Scope} {outer : List (Nat × Scope)}
    (h : t.Linked ((id, s) :: outer)) :
    t.activation? id =
      (((id, s) :: outer).find? fun p => p.2.kind = .procedure).map Prod.fst := by
  have hk : ∀ stack : List (Nat × Scope), t.Linked stack →
      (stack.map Prod.fst).find? t.isProcedure =
        (stack.find? fun p => p.2.kind = .procedure).map Prod.fst := by
    intro stack hs
    induction stack with
    | nil => rfl
    | cons p outer ih =>
      have hp : t.isProcedure p.1 = decide (p.2.kind = .procedure) := by
        simp [isProcedure, hs.1]
      simp only [List.map_cons, List.find?_cons, hp, ih hs.2.2.2]
      split <;> rfl
  rw [ScopeTree.activation?, h.chain]
  exact hk _ h

theorem Linked.depth {t : ScopeTree} {id : Nat} {s : Scope} {outer : List (Nat × Scope)}
    (h : t.Linked ((id, s) :: outer)) : t.depth id = outer.length := by
  simp [ScopeTree.depth, h.chain]

end ScopeTree

namespace Lexical
open ScopeTree

/-- The scopes of an activation with those around it. Only its procedure counts root slots. -/
def stack (slots : Nat) (outer : List (Nat × Scope)) : List Frame → List (Nat × Scope)
  | [] => outer
  | [f] => (f.scope, ⟨.procedure, f.bindings, slots, outer.head?.map Prod.fst⟩) :: outer
  | f :: g :: more =>
    (f.scope, ⟨.letIn, f.bindings, 0, some g.scope⟩) :: stack slots outer (g :: more)

theorem stack_cons (slots : Nat) (outer : List (Nat × Scope)) (f : Frame) (more : List Frame) :
    ∃ s, stack slots outer (f :: more) = (f.scope, s) :: stack slots outer more ∧
      s.bindings = f.bindings ∧ s.kind = (if more = [] then .procedure else .letIn) ∧
      s.parent? = (stack slots outer more).head?.map Prod.fst := by
  cases more with
  | nil => exact ⟨_, rfl, rfl, rfl, rfl⟩
  | cons g more =>
    refine ⟨_, rfl, rfl, by simp, ?_⟩
    cases more <;> rfl

theorem stack_suffix (slots : Nat) (outer : List (Nat × Scope)) (inner frames : List Frame) :
    stack slots outer frames <:+ stack slots outer (inner ++ frames) := by
  induction inner with
  | nil => exact List.suffix_rfl
  | cons f more ih =>
    obtain ⟨s, hs, -⟩ := stack_cons slots outer f (more ++ frames)
    rw [List.cons_append, hs]
    exact ih.trans (List.suffix_cons _ _)

theorem outer_suffix_stack (slots : Nat) (outer : List (Nat × Scope)) (frames : List Frame) :
    outer <:+ stack slots outer frames := by
  simpa [stack] using stack_suffix slots outer frames []

theorem map_fst_stack (slots : Nat) (outer : List (Nat × Scope)) (frames : List Frame) :
    (stack slots outer frames).map Prod.fst = frames.map Frame.scope ++ outer.map Prod.fst := by
  induction frames with
  | nil => rfl
  | cons f more ih =>
    obtain ⟨s, hs, -⟩ := stack_cons slots outer f more
    simp [hs, ih]

/-- The procedure of an activation is the outermost of its own scopes. -/
theorem find_procedure_stack (slots : Nat) (outer : List (Nat × Scope)) (f : Frame)
    (more : List Frame) :
    ∃ p, (stack slots outer (f :: more)).find? (fun p => p.2.kind = .procedure) = some p ∧
      ((f :: more).map Frame.scope).getLast? = some p.1 ∧ p.2.rootSlots = slots := by
  induction more generalizing f with
  | nil => simp [stack]
  | cons g more ih => simpa [stack] using ih g

theorem length_stack (slots : Nat) (outer : List (Nat × Scope)) (frames : List Frame) :
    (stack slots outer frames).length = frames.length + outer.length := by
  induction frames with
  | nil => simp [stack]
  | cons f more ih =>
    obtain ⟨s, hs, -⟩ := stack_cons slots outer f more
    rw [hs]
    simp only [List.length_cons, ih]
    omega

theorem findStacked_stack (slots : Nat) (outer : List (Nat × Scope)) (frames : List Frame)
    (name : String) (level : Nat) :
    findStacked name level (stack slots outer frames) =
      (Frame.find name level frames).or (findStacked name (level + frames.length) outer) := by
  induction frames generalizing level with
  | nil => simp [stack, Frame.find]
  | cons f more ih =>
    obtain ⟨s, hs, hb, -⟩ := stack_cons slots outer f more
    rw [hs]
    have hl : level + (more.length + 1) = level + 1 + more.length := by omega
    cases hg : f.bindings.get? name <;> simp [findStacked, Frame.find, hb, hg, ih, hl]

theorem outer_lt_of_linked {t : ScopeTree} {slots : Nat} {outer : List (Nat × Scope)}
    {frames : List Frame} (h : t.Linked (stack slots outer frames)) {f : Frame} (hf : f ∈ frames)
    {p : Nat × Scope} (hp : p ∈ outer) : p.1 < f.scope := by
  induction frames with
  | nil => simp at hf
  | cons g more ih =>
    obtain ⟨s, hs, -⟩ := stack_cons slots outer g more
    rw [hs] at h
    rcases List.mem_cons.mp hf with rfl | hf
    · apply h.2.2.1 p
      exact (outer_suffix_stack slots outer more).subset hp
    · exact ih h.2.2.2 hf

/-- Changes one scope of a stack. -/
def update (id : Nat) (change : Scope → Scope) (p : Nat × Scope) : Nat × Scope :=
  (p.1, if p.1 = id then change p.2 else p.2)

theorem linked_update {t : ScopeTree} {st : List (Nat × Scope)} (h : t.Linked st) (id : Nat)
    (change : Scope → Scope) (hc : ∀ s, (change s).parent? = s.parent?) :
    (⟨t.scopes.modify id change⟩ : ScopeTree).Linked (st.map (update id change)) := by
  induction st with
  | nil => trivial
  | cons p outer ih =>
    obtain ⟨hp, hq, hlt, ho⟩ := h
    refine ⟨?_, ?_, ?_, ih ho⟩
    · unfold ScopeTree.get? at hp ⊢
      simp only [Array.getElem?_modify, hp]
      by_cases hi : id = p.1 <;> simp [hi, eq_comm]
    · have hhead : (outer.map (update id change)).head?.map Prod.fst = outer.head?.map Prod.fst := by
        cases outer <;> rfl
      rw [hhead, ← hq]
      by_cases hi : p.1 = id <;> simp [hi, hc]
    · intro q hq
      obtain ⟨r, hr, rfl⟩ := List.mem_map.mp hq
      exact hlt r hr

theorem map_update_outer {id : Nat} (change : Scope → Scope) {outer : List (Nat × Scope)}
    (h : ∀ p ∈ outer, p.1 < id) : outer.map (update id change) = outer := by
  have hu : ∀ p ∈ outer, update id change p = p := by
    intro p hp
    simp [update, Nat.ne_of_lt (h p hp)]
  rw [List.map_congr_left hu, List.map_id']

theorem map_update_define {slots : Nat} {outer : List (Nat × Scope)} {id : Nat}
    (h : ∀ p ∈ outer, p.1 < id) (name : String) (ty : Ty) (frames : List Frame) :
    (stack slots outer frames).map
        (update id fun s => { s with bindings := s.bindings.bind name ty }) =
      stack slots outer (frames.map (Frame.define id name ty)) := by
  have hframe (f : Frame) (kind : ScopeKind) (n : Nat) (parent? : Option Nat) :
      update id (fun s => { s with bindings := s.bindings.bind name ty })
          (f.scope, ⟨kind, f.bindings, n, parent?⟩) =
        ((Frame.define id name ty f).scope,
          ⟨kind, (Frame.define id name ty f).bindings, n, parent?⟩) := by
    by_cases hi : f.scope = id <;> simp [update, Frame.define, hi]
  have hscope (f : Frame) : (Frame.define id name ty f).scope = f.scope := by
    unfold Frame.define
    split <;> rfl
  induction frames with
  | nil => exact map_update_outer _ h
  | cons f more ih =>
    cases more with
    | nil => simp [stack, hframe, map_update_outer _ h]
    | cons g more =>
      simp only [stack, List.map_cons, hframe, hscope] at ih ⊢
      rw [ih]

theorem map_update_slot {t : ScopeTree} {slots : Nat} {outer : List (Nat × Scope)}
    {frames : List Frame} {base : Nat} (hb : (frames.map Frame.scope).getLast? = some base)
    (h : t.Linked (stack slots outer frames)) :
    (stack slots outer frames).map (update base fun s => { s with rootSlots := s.rootSlots + 1 }) =
      stack (slots + 1) outer frames := by
  induction frames with
  | nil => simp at hb
  | cons f more ih =>
    cases more with
    | nil =>
      have hf : f.scope = base := by simpa using hb
      have hlt : ∀ p ∈ outer, p.1 < base := fun p hp =>
        hf ▸ outer_lt_of_linked h (List.mem_singleton_self f) hp
      simp [stack, update, hf, map_update_outer _ hlt]
    | cons g more =>
      have hb : ((g :: more).map Frame.scope).getLast? = some base := by simpa using hb
      have hmem : base ∈ (stack slots outer (g :: more)).map Prod.fst := by
        rw [map_fst_stack]
        exact List.mem_append_left _ (List.mem_of_getLast? hb)
      obtain ⟨p, hp, hpb⟩ := List.mem_map.mp hmem
      have hne : f.scope ≠ base := by
        have hlt := h.2.2.1 p hp
        omega
      simp only [stack, List.map_cons, ih hb h.2.2.2]
      simp [update, hne]

theorem find_split {name : String} {level : Nat} {frames : List Frame} {r : BindingSite}
    (h : Frame.find name level frames = some r) :
    ∃ inner, ∃ f : Frame, ∃ outer, frames = inner ++ f :: outer ∧ r.scope = f.scope := by
  induction frames generalizing level with
  | nil => simp [Frame.find] at h
  | cons f more ih =>
    simp only [Frame.find] at h
    split at h
    · cases h
      exact ⟨[], f, more, rfl, rfl⟩
    · obtain ⟨inner, g, outer, rfl, hr⟩ := ih h
      exact ⟨f :: inner, g, outer, rfl, hr⟩

theorem findStacked_split {name : String} {level : Nat} {st : List (Nat × Scope)}
    {r : BindingSite} (h : findStacked name level st = some r) :
    ∃ inner p outer, st = inner ++ p :: outer ∧ r.scope = p.1 := by
  induction st generalizing level with
  | nil => simp [findStacked] at h
  | cons p more ih =>
    simp only [findStacked] at h
    split at h
    · cases h
      exact ⟨[], p, more, rfl, rfl⟩
    · obtain ⟨inner, q, outer, rfl, hr⟩ := ih h
      exact ⟨p :: inner, q, outer, rfl, hr⟩

theorem isSome_findStacked (name : String) (level level' : Nat) (st : List (Nat × Scope)) :
    (findStacked name level st).isSome = (findStacked name level' st).isSome := by
  induction st generalizing level level' with
  | nil => rfl
  | cons p more ih =>
    simp only [findStacked]
    split
    · rfl
    · exact ih _ _

end Lexical

end RootedC
