import RootedC.Proofs.Typing.Confinement

/-!
The tree of scopes under any sequence of operations. A history lists what was done and what came of
it. Main statement: the tree is accounted for by its history. Scopes are numbered as they are opened
and stand in earlier ones, a name means its latest definition in the nearest scope that has one, and
every activation hands out its root slots one by one, whichever of its scopes asks for them.
-/
namespace RootedC.ScopeTree

/-- An operation on the scopes. -/
inductive Op where
  | create (kind : ScopeKind) (parent? : Option Nat)
  | define (id : Nat) (name : String) (ty : Ty)
  | takeSlot (id : Nat)

/-- The scopes that an operation names. -/
def Op.ids : Op → List Nat
  | create _ parent? => parent?.toList
  | define id _ _ => [id]
  | takeSlot id => [id]

/-- What came of an operation. -/
inductive Event where
  | opened (kind : ScopeKind) (parent? : Option Nat) (id : Nat)
  | defined (id : Nat) (name : String) (ty : Ty)
  | given (id slot : Nat)
  | refused (id : Nat)

def perform (t : ScopeTree) : Op → Event × ScopeTree
  | .create kind parent? =>
    (.opened kind parent? (t.create kind parent?).1, (t.create kind parent?).2)
  | .define id name ty => (.defined id name ty, t.define id name ty)
  | .takeSlot id =>
    match t.takeRootSlot? id with
    | some (slot, u) => (.given id slot, u)
    | none => (.refused id, t)

/-- What came of a sequence of operations, from no scopes on, that name open scopes only; and the
tree that they lead to. -/
inductive History : List Event → ScopeTree → Prop
  | nil : History [] empty
  | snoc {log : List Event} {t : ScopeTree} (h : History log t) (op : Op)
    (hop : ∀ id ∈ op.ids, id < t.size) : History (log ++ [(t.perform op).1]) (t.perform op).2

variable {log : List Event} {t u : ScopeTree} {id owner : Nat}

/-- The tree after the activation `owner` has handed out a slot. -/
def withSlotTaken (t : ScopeTree) (owner : Nat) : ScopeTree :=
  ⟨t.scopes.modify owner fun s => { s with rootSlots := s.rootSlots + 1 }⟩

/-- Asking for a slot gives the next one of the scope's activation, or leaves the tree as it is. -/
theorem perform_takeSlot (t : ScopeTree) (id : Nat) :
    (∃ owner, t.activation? id = some owner ∧
      t.perform (.takeSlot id) = (.given id (t.rootSlotsAt owner), t.withSlotTaken owner)) ∨
    t.perform (.takeSlot id) = (.refused id, t) := by
  cases hslot : t.takeRootSlot? id with
  | none => exact .inr (by simp only [perform, hslot])
  | some x =>
    obtain ⟨owner, howner, hnext, htree⟩ := takeRootSlot?_eq_some hslot
    exact .inl ⟨owner, howner, by simp only [perform, hslot, hnext, htree, withSlotTaken]⟩

/-- Induction on histories, by what came of the last operation. -/
theorem History.induct {motive : ∀ {log : List Event} {t : ScopeTree}, History log t → Prop}
    (nil : motive nil)
    (opened : ∀ {log t} kind parent? (h : History log t)
      (h' : History (log ++ [.opened kind parent? t.size]) (t.create kind parent?).2),
      (∀ p ∈ parent?, p < t.size) → motive h → motive h')
    (defined : ∀ {log t} id name ty (h : History log t)
      (h' : History (log ++ [.defined id name ty]) (t.define id name ty)),
      id < t.size → motive h → motive h')
    (given : ∀ {log t} id owner (h : History log t)
      (h' : History (log ++ [.given id (t.rootSlotsAt owner)]) (t.withSlotTaken owner)),
      id < t.size → t.activation? id = some owner →
      t.perform (.takeSlot id) = (.given id (t.rootSlotsAt owner), t.withSlotTaken owner) →
      motive h → motive h')
    (refused : ∀ {log t} id (h : History log t) (h' : History (log ++ [.refused id]) t),
      id < t.size → motive h → motive h')
    (h : History log t) : motive h := by
  induction h with
  | nil => exact nil
  | @snoc log t h op hop ih =>
    generalize History.snoc h op hop = h'
    cases op with
    | create kind parent? => exact opened kind parent? h h' (by simpa [Op.ids] using hop) ih
    | define id name ty => exact defined id name ty h h' (hop id (by simp [Op.ids])) ih
    | takeSlot id =>
      have hid : id < t.size := hop id (by simp [Op.ids])
      revert h'
      rcases perform_takeSlot t id with ⟨owner, howner, hp⟩ | hp
      · have hgiven := given id owner h
        rw [hp]
        exact fun h' => hgiven h' hid howner hp ih
      · rw [hp]
        exact fun h' => refused id h h' hid ih

section Log

/-- The numbers of the scopes that were opened, in order. -/
def openedIds (log : List Event) : List Nat :=
  log.filterMap fun
    | .opened _ _ id => some id
    | _ => none

/-- The type that a name was last given in a scope. -/
def latest? (log : List Event) (id : Nat) (name : String) : Option Ty :=
  log.reverse.findSome? fun
    | .defined i x ty => if i = id ∧ x = name then some ty else none
    | _ => none

/-- The slots that were given through the scopes of an activation, in order. -/
def slotsOf (t : ScopeTree) (log : List Event) (owner : Nat) : List Nat :=
  log.filterMap fun
    | .given id slot => if t.activation? id = some owner then some slot else none
    | _ => none

/-- How many slots were given through scopes that have the same activation, or have none. -/
def timesGiven (t : ScopeTree) (log : List Event) (owner? : Option Nat) : Nat :=
  log.countP fun
    | .given id _ => t.activation? id = owner?
    | _ => false

def Event.isRefused : Event → Bool
  | refused _ => true
  | _ => false

end Log

section Steps

/-- The scopes of `t` are in `u`, of the same kinds and in the same places. -/
def Keeps (t u : ScopeTree) : Prop :=
  ∀ id s, t.get? id = some s → ∃ s', u.get? id = some s' ∧ s'.kind = s.kind ∧ s'.parent? = s.parent?

theorem keeps_create (t : ScopeTree) (kind : ScopeKind) (parent? : Option Nat) :
    t.Keeps (t.create kind parent?).2 :=
  fun _ s hs => ⟨s, get?_create kind parent? hs, rfl, rfl⟩

theorem keeps_define (t : ScopeTree) (id : Nat) (name : String) (ty : Ty) :
    t.Keeps (t.define id name ty) :=
  kept_of_modify fun _ => ⟨rfl, rfl⟩

theorem keeps_withSlotTaken (t : ScopeTree) (owner : Nat) : t.Keeps (t.withSlotTaken owner) :=
  kept_of_modify fun _ => ⟨rfl, rfl⟩

@[simp] theorem size_define (t : ScopeTree) (id : Nat) (name : String) (ty : Ty) :
    (t.define id name ty).size = t.size := by
  simp [define, size]

@[simp] theorem size_withSlotTaken (t : ScopeTree) (owner : Nat) :
    (t.withSlotTaken owner).size = t.size := by
  simp [withSlotTaken, size]

theorem get?_of_lt (h : id < t.size) : ∃ s, t.get? id = some s :=
  ⟨_, Array.getElem?_eq_getElem h⟩

theorem get?_eq_none (h : t.size ≤ id) : t.get? id = none :=
  Array.getElem?_eq_none h

theorem get?_create_eq (t : ScopeTree) (kind : ScopeKind) (parent? : Option Nat) (i : Nat) :
    (t.create kind parent?).2.get? i =
      if i = t.size then some ⟨kind, [], 0, parent?⟩ else t.get? i := by
  rcases Nat.lt_trichotomy i t.size with hlt | rfl | hgt
  · obtain ⟨s, hs⟩ := get?_of_lt hlt
    rw [get?_create kind parent? hs, hs, if_neg hlt.ne]
  · rw [get?_create_self, if_pos rfl]
  · rw [get?_eq_none (by simpa using hgt), get?_eq_none hgt.le, if_neg hgt.ne']

theorem lookup?_create (t : ScopeTree) (kind : ScopeKind) (parent? : Option Nat) (id : Nat)
    (name : String) : (t.create kind parent?).2.lookup? id name = t.lookup? id name := by
  rw [lookup?, lookup?, get?_create_eq]
  split
  · subst id
    rw [get?_eq_none (Nat.le_refl _)]
    rfl
  · rfl

theorem lookup?_define (h : id < t.size) (name : String) (ty : Ty) (i : Nat) (x : String) :
    (t.define id name ty).lookup? i x =
      if id = i ∧ name = x then some ty else t.lookup? i x := by
  unfold lookup? define
  rw [get?_modify]
  by_cases hi : id = i
  · subst hi
    obtain ⟨s, hs⟩ := get?_of_lt h
    by_cases hx : name = x
    · subst hx
      simp [hs]
    · simp [hs, hx, Bindings.get?_bind_of_ne _ _ (Ne.symm hx)]
  · simp [hi]

theorem lookup?_withSlotTaken (t : ScopeTree) (owner i : Nat) (x : String) :
    (t.withSlotTaken owner).lookup? i x = t.lookup? i x := by
  unfold lookup? withSlotTaken
  rw [get?_modify]
  split
  · cases t.get? i <;> rfl
  · rfl

theorem rootSlotsAt_create (t : ScopeTree) (kind : ScopeKind) (parent? : Option Nat) (i : Nat) :
    (t.create kind parent?).2.rootSlotsAt i = t.rootSlotsAt i := by
  rw [rootSlotsAt, rootSlotsAt, get?_create_eq]
  split
  · subst i
    rw [get?_eq_none (Nat.le_refl _)]
    rfl
  · rfl

theorem rootSlotsAt_define (t : ScopeTree) (id : Nat) (name : String) (ty : Ty) (i : Nat) :
    (t.define id name ty).rootSlotsAt i = t.rootSlotsAt i := by
  unfold rootSlotsAt define
  rw [get?_modify]
  split
  · cases t.get? i <;> rfl
  · rfl

theorem rootSlotsAt_withSlotTaken (h : owner < t.size) (i : Nat) :
    (t.withSlotTaken owner).rootSlotsAt i =
      if owner = i then t.rootSlotsAt i + 1 else t.rootSlotsAt i := by
  unfold rootSlotsAt withSlotTaken
  rw [get?_modify]
  by_cases hi : owner = i
  · subst hi
    obtain ⟨s, hs⟩ := get?_of_lt h
    simp [hs]
  · simp [hi]

end Steps

section Runs

theorem History.openedIds_eq (h : History log t) : openedIds log = List.range t.size := by
  induction h using History.induct with
  | nil => rfl
  | opened kind parent? _ _ _ ih =>
    rw [size_create, List.range_succ, ← ih]
    simp [openedIds]
  | defined id name ty _ _ _ ih => simpa [openedIds] using ih
  | given id owner _ _ _ _ _ ih => simpa [openedIds] using ih
  | refused id _ _ _ ih => simpa [openedIds] using ih

theorem History.ordered (h : History log t) : t.Ordered := by
  induction h using History.induct with
  | nil =>
    intro id s hs
    simp [empty, get?] at hs
  | opened kind parent? _ _ hp ih => exact ih.create kind hp
  | defined id name ty _ _ _ ih => exact ih.modify id fun _ => rfl
  | given id owner _ _ _ _ _ ih => exact ih.modify owner fun _ => rfl
  | refused id _ _ _ ih => exact ih

/-- A scope binds a name to what it was last given there. -/
theorem History.lookup?_eq (h : History log t) (i : Nat) (x : String) :
    t.lookup? i x = latest? log i x := by
  induction h using History.induct with
  | nil => simp [latest?, lookup?, empty, get?]
  | opened kind parent? _ _ _ ih =>
    rw [lookup?_create, ih]
    simp [latest?]
  | defined id name ty _ _ hid ih =>
    rw [lookup?_define hid, ih]
    by_cases hb : id = i ∧ name = x <;> simp [latest?, hb]
  | given id owner _ _ _ _ _ ih =>
    rw [lookup?_withSlotTaken, ih]
    simp [latest?]
  | refused id _ _ _ ih =>
    rw [ih]
    simp [latest?]

/-- Scopes stay in the activations that they were opened in. -/
theorem History.activation?_of_keeps {log' : List Event} (h : History log t) (h' : History log' u)
    (hk : t.Keeps u) (hid : id < t.size) : u.activation? id = t.activation? id :=
  h.ordered.activation?_of_kept h'.ordered hk hid

theorem History.exists_activation {slot : Nat} (h : History log t) (hm : .given id slot ∈ log) :
    id < t.size ∧ ∃ owner, t.activation? id = some owner := by
  induction h using History.induct with
  | nil => simp at hm
  | @opened log t kind parent? h h' _ ih =>
    obtain ⟨hid, ho⟩ := ih (by simpa using hm)
    rw [h.activation?_of_keeps h' (keeps_create t kind parent?) hid, size_create]
    exact ⟨by omega, ho⟩
  | @defined log t i name ty h h' _ ih =>
    obtain ⟨hid, ho⟩ := ih (by simpa using hm)
    rw [h.activation?_of_keeps h' (keeps_define t i name ty) hid, size_define]
    exact ⟨hid, ho⟩
  | @given log t i owner h h' hi howner _ ih =>
    have hlogged : id < t.size ∧ ∃ owner, t.activation? id = some owner := by
      rcases List.mem_append.mp hm with hm | hm
      · exact ih hm
      · obtain ⟨rfl, -⟩ : id = i ∧ slot = t.rootSlotsAt owner := by simpa using hm
        exact ⟨hi, owner, howner⟩
    rw [h.activation?_of_keeps h' (keeps_withSlotTaken t owner) hlogged.1, size_withSlotTaken]
    exact hlogged
  | refused i _ _ _ ih => exact ih (by simpa using hm)

/-- What was given to an activation is still counted as given to it later. -/
theorem History.slotsOf_of_keeps {log' : List Event} (h : History log t) (h' : History log' u)
    (hk : t.Keeps u) (owner : Nat) : slotsOf u log owner = slotsOf t log owner := by
  apply List.filterMap_congr
  intro e he
  cases e with
  | given id slot =>
    simp only [h.activation?_of_keeps h' hk (h.exists_activation he).1]
  | _ => rfl

/-- An activation hands out its slots one by one. -/
theorem History.slotsOf_eq (h : History log t) (owner : Nat) :
    slotsOf t log owner = List.range (t.rootSlotsAt owner) := by
  induction h using History.induct with
  | nil => simp [slotsOf, rootSlotsAt, empty, get?]
  | @opened log t kind parent? h h' _ ih =>
    rw [rootSlotsAt_create, ← ih, ← h.slotsOf_of_keeps h' (keeps_create t kind parent?)]
    simp [slotsOf]
  | @defined log t id name ty h h' _ ih =>
    rw [rootSlotsAt_define, ← ih, ← h.slotsOf_of_keeps h' (keeps_define t id name ty)]
    simp [slotsOf]
  | @given log t id o h h' hid ho _ ih =>
    have hlt : o < t.size := (h.ordered.activation?_le ho hid).trans_lt hid
    have hkept := h.activation?_of_keeps h' (keeps_withSlotTaken t o) hid
    have hold := h.slotsOf_of_keeps h' (keeps_withSlotTaken t o) owner
    rw [rootSlotsAt_withSlotTaken hlt]
    by_cases heq : o = owner
    · subst heq
      rw [if_pos rfl, List.range_succ, ← ih, ← hold]
      simp [slotsOf, hkept, ho]
    · rw [if_neg heq, ← ih, ← hold]
      simp [slotsOf, hkept, ho, heq]
  | refused id _ _ _ ih => simpa [slotsOf] using ih

/-- Refused requests leave no trace in the tree. -/
theorem History.without_refused (h : History log t) :
    History (log.filter fun e => !e.isRefused) t := by
  induction h using History.induct with
  | nil => exact .nil
  | opened kind parent? _ _ hp ih =>
    simpa [Event.isRefused, perform, create] using
      ih.snoc (.create kind parent?) (by simpa [Op.ids] using hp)
  | defined id name ty _ _ hid ih =>
    simpa [Event.isRefused, perform] using ih.snoc (.define id name ty) (by simpa [Op.ids] using hid)
  | given id owner _ _ hid _ hp ih =>
    simpa [Event.isRefused, hp] using ih.snoc (.takeSlot id) (by simpa [Op.ids] using hid)
  | refused id _ _ _ ih => simpa [Event.isRefused] using ih

end Runs

section Walks

/-- The scope that is reached by going out `n` times, to the scope around. -/
def ancestor? (t : ScopeTree) : Nat → Nat → Option Nat
  | 0, id => some id
  | n + 1, id => (t.parent? id).bind (t.ancestor? n)

theorem Linked.getElem?_map_fst {s : Scope} {outer : List (Nat × Scope)}
    (h : t.Linked ((id, s) :: outer)) (n : Nat) :
    (id :: outer.map Prod.fst)[n]? = t.ancestor? n id := by
  induction n generalizing id s outer with
  | zero => rfl
  | succ n ih =>
    have hp : t.parent? id = outer.head?.map Prod.fst := by simp [parent?, h.1, h.2.1]
    rw [ancestor?, hp, List.getElem?_cons_succ]
    cases outer with
    | nil => rfl
    | cons p outer => exact ih h.2.2.2

/-- Every walk outward goes through all the scopes around a scope, one after the other. -/
theorem Ordered.getElem?_chain (h : t.Ordered) (hid : id < t.size) (n : Nat) :
    (t.chain id)[n]? = t.ancestor? n id := by
  obtain ⟨s, outer, hl⟩ := h.exists_linked hid
  rw [hl.chain, hl.getElem?_map_fst]

theorem Ordered.mem_chain_iff (h : t.Ordered) (hid : id < t.size) {e : Nat} :
    e ∈ t.chain id ↔ ∃ n, t.ancestor? n id = some e := by
  simp only [List.mem_iff_getElem?, h.getElem?_chain hid]

theorem Ordered.depth_le (h : t.Ordered) (hid : id < t.size) : t.depth id ≤ id := by
  obtain ⟨s, outer, hl⟩ := h.exists_linked hid
  rw [hl.depth]
  exact hl.length_le

/-- As many steps outward as a scope is deep lead to a scope with nothing around it. -/
theorem Ordered.ancestor?_depth (h : t.Ordered) (hid : id < t.size) :
    ∃ root, t.ancestor? (t.depth id) id = some root ∧ t.parent? root = none := by
  obtain ⟨s, outer, hl⟩ := h.exists_linked hid
  rw [hl.depth]
  clear hid
  induction outer generalizing id s with
  | nil => exact ⟨id, rfl, by simp [parent?, hl.1, hl.2.1]⟩
  | cons p outer ih =>
    have hp : t.parent? id = some p.1 := by simp [parent?, hl.1, hl.2.1]
    simpa [ancestor?, hp] using ih p.2 hl.2.2.2

theorem findIn_eq_some_iff {name : String} {start : Nat} {ids : List Nat} {r : BindingSite} :
    t.findIn name start ids = some r ↔
      ∃ n, r.level = start + n ∧ ids[n]? = some r.scope ∧ t.lookup? r.scope name = some r.ty ∧
        ∀ i < n, ∀ e, ids[i]? = some e → t.lookup? e name = none := by
  induction ids generalizing start with
  | nil => simp [findIn]
  | cons id outer ih =>
    rw [findIn]
    constructor
    · intro h
      split at h
      next ty hty =>
        cases h
        exact ⟨0, rfl, rfl, hty, by simp⟩
      next hnone =>
        obtain ⟨n, hlevel, hscope, hty, hbefore⟩ := ih.mp h
        refine ⟨n + 1, by omega, hscope, hty, fun i hi e he => ?_⟩
        cases i with
        | zero =>
          obtain rfl : id = e := by simpa using he
          exact hnone
        | succ i => exact hbefore i (by omega) e he
    · rintro ⟨n, hlevel, hscope, hty, hbefore⟩
      cases n with
      | zero =>
        obtain rfl : id = r.scope := by simpa using hscope
        obtain rfl : start = r.level := by omega
        simp [hty]
      | succ n =>
        rw [hbefore 0 (by omega) id rfl]
        apply ih.mpr
        exact ⟨n, by omega, hscope, hty, fun i hi e he => hbefore (i + 1) (by omega) e he⟩

theorem findIn_eq_none_iff {name : String} {start : Nat} {ids : List Nat} :
    t.findIn name start ids = none ↔ ∀ e ∈ ids, t.lookup? e name = none := by
  induction ids generalizing start with
  | nil => simp [findIn]
  | cons id outer ih =>
    rw [findIn]
    cases hty : t.lookup? id name <;> simp [hty, ih]

theorem isProcedure_of_activation? (h : t.activation? id = some owner) :
    t.isProcedure owner = true :=
  List.find?_some h

/-- The activation of a scope is the nearest procedure on the way out. -/
theorem Ordered.activation?_eq_some_iff (h : t.Ordered) (hid : id < t.size) :
    t.activation? id = some owner ↔ ∃ n, t.ancestor? n id = some owner ∧
      t.isProcedure owner = true ∧
      ∀ i < n, ∀ e, t.ancestor? i id = some e → t.isProcedure e = false := by
  simp only [activation?, List.find?_eq_some_iff_getElem, ← h.getElem?_chain hid]
  constructor
  · rintro ⟨howner, n, hn, hget, hbefore⟩
    refine ⟨n, List.getElem?_eq_some_iff.mpr ⟨hn, hget⟩, howner, fun i hi e he => ?_⟩
    obtain ⟨_, rfl⟩ := List.getElem?_eq_some_iff.mp he
    simpa using hbefore i hi
  · rintro ⟨n, hget, howner, hbefore⟩
    obtain ⟨hn, hget⟩ := List.getElem?_eq_some_iff.mp hget
    refine ⟨howner, n, hn, hget, fun i hi => ?_⟩
    simp [hbefore i hi _ (List.getElem?_eq_getElem (hi.trans hn))]

end Walks

section Accounts

theorem timesGiven_some (t : ScopeTree) (log : List Event) (owner : Nat) :
    timesGiven t log (some owner) = (slotsOf t log owner).length := by
  induction log with
  | nil => rfl
  | cons e log ih =>
    unfold timesGiven slotsOf at ih ⊢
    rw [List.countP_cons, List.filterMap_cons, ih]
    cases e with
    | given id slot => by_cases ho : t.activation? id = some owner <;> simp [ho]
    | _ => simp

theorem History.rootCount_eq (h : History log t) (id : Nat) :
    t.rootCount id = timesGiven t log (t.activation? id) := by
  unfold rootCount
  cases ho : t.activation? id with
  | some owner => simp [timesGiven_some, h.slotsOf_eq]
  | none =>
    symm
    apply List.countP_eq_zero.mpr
    intro e he
    cases e with
    | given i slot =>
      obtain ⟨-, owner, howner⟩ := h.exists_activation he
      simp [howner]
    | _ => simp

theorem History.rootSlotsAt_eq_zero (h : History log t) (hk : t.isProcedure id = false) :
    t.rootSlotsAt id = 0 := by
  have hnone : slotsOf t log id = [] := by
    apply List.filterMap_eq_nil_iff.mpr
    intro e _
    cases e with
    | given i slot =>
      have hne : t.activation? i ≠ some id := fun ha => by
        simp [isProcedure_of_activation? ha] at hk
      simp [hne]
    | _ => rfl
  simpa [h.slotsOf_eq] using hnone

/-- A module has no slots to give, nor does a scope that no procedure is around. -/
theorem takeRootSlot?_eq_none_iff {s : Scope} (hs : t.get? id = some s) :
    t.takeRootSlot? id = none ↔ s.kind = .module ∨ t.activation? id = none := by
  unfold takeRootSlot? slotOwner?
  cases hk : s.kind <;> simp [hs, hk]

/-- How a tree of scopes follows from its history. -/
structure Accounts (log : List Event) (t : ScopeTree) : Prop where
  /-- Scopes are numbered in the order in which they are opened. -/
  ids : openedIds log = List.range t.size
  parents : ∀ id s, t.get? id = some s → ∀ p ∈ s.parent?, p < id
  /-- A walk outward meets every scope on its way and ends. -/
  walks : ∀ id < t.size, (∀ n, (t.chain id)[n]? = t.ancestor? n id) ∧ t.depth id ≤ id ∧
    ∃ root, t.ancestor? (t.depth id) id = some root ∧ t.parent? root = none
  /-- A name means the latest definition in the nearest scope that has one. -/
  found : ∀ id < t.size, ∀ name ty level e, t.find? id name = some ⟨ty, level, e⟩ ↔
    t.ancestor? level id = some e ∧ latest? log e name = some ty ∧
      ∀ n < level, ∀ e', t.ancestor? n id = some e' → latest? log e' name = none
  missing : ∀ id < t.size, ∀ name, t.find? id name = none ↔
    ∀ n e, t.ancestor? n id = some e → latest? log e name = none
  activations : ∀ id < t.size, ∀ owner, t.activation? id = some owner ↔
    ∃ n, t.ancestor? n id = some owner ∧ t.isProcedure owner = true ∧
      ∀ i < n, ∀ e, t.ancestor? i id = some e → t.isProcedure e = false
  /-- The slots of an activation are given in order, none twice, through whichever scopes. -/
  slots : ∀ owner, slotsOf t log owner = List.range (t.rootSlotsAt owner)
  counts : ∀ id < t.size, t.rootCount id = timesGiven t log (t.activation? id)
  idle : ∀ id s, t.get? id = some s → s.kind ≠ .procedure → s.rootSlots = 0
  refusals : ∀ id s, t.get? id = some s →
    (t.takeRootSlot? id = none ↔ s.kind = .module ∨ t.activation? id = none)
  /-- Refused requests change nothing. -/
  unchanged : History (log.filter fun e => !e.isRefused) t

/-- Whatever is done with scopes, and in whatever order, the tree of scopes and the slots that it
has given are accounted for. -/
theorem history_accounts (h : History log t) : Accounts log t where
  ids := h.openedIds_eq
  parents := h.ordered
  walks id hid :=
    ⟨h.ordered.getElem?_chain hid, h.ordered.depth_le hid, h.ordered.ancestor?_depth hid⟩
  found id hid name ty level e := by
    simp only [find?, findIn_eq_some_iff, h.ordered.getElem?_chain hid, h.lookup?_eq, Nat.zero_add]
    refine ⟨?_, fun hrest => ⟨level, rfl, hrest⟩⟩
    rintro ⟨n, hn, hrest⟩
    exact hn ▸ hrest
  missing id hid name := by
    simp only [find?, findIn_eq_none_iff, h.ordered.mem_chain_iff hid, h.lookup?_eq]
    refine ⟨fun hall n e he => hall e ⟨n, he⟩, fun hall e => ?_⟩
    rintro ⟨n, he⟩
    exact hall n e he
  activations id hid owner := h.ordered.activation?_eq_some_iff hid
  slots := h.slotsOf_eq
  counts id _ := h.rootCount_eq id
  idle id s hs hk := by
    have hother : t.isProcedure id = false := by simp [isProcedure, hs, hk]
    simpa [rootSlotsAt, hs] using h.rootSlotsAt_eq_zero hother
  refusals id s hs := takeRootSlot?_eq_none_iff hs
  unchanged := h.without_refused

/-- Two activations, one inside the other: each has slots of its own, and the scope inside a
procedure takes those of the procedure. -/
theorem history_accounts_nested :
    ∃ t, Accounts [.opened .module none 0, .opened .procedure (some 0) 1, .opened .letIn (some 1) 2,
        .opened .procedure (some 2) 3, .defined 1 "x" .i32, .given 2 0, .given 3 0, .refused 0,
        .defined 1 "x" .bool, .given 1 1] t ∧
      t.rootCount 2 = 2 ∧ t.rootCount 3 = 1 ∧ t.rootCount 0 = 0 ∧
      t.find? 3 "x" = some ⟨.bool, 2, 1⟩ :=
  ⟨_, history_accounts (History.nil
      |>.snoc (.create .module none) (by decide)
      |>.snoc (.create .procedure (some 0)) (by decide)
      |>.snoc (.create .letIn (some 1)) (by decide)
      |>.snoc (.create .procedure (some 2)) (by decide)
      |>.snoc (.define 1 "x" .i32) (by decide)
      |>.snoc (.takeSlot 2) (by decide)
      |>.snoc (.takeSlot 3) (by decide)
      |>.snoc (.takeSlot 0) (by decide)
      |>.snoc (.define 1 "x" .bool) (by decide)
      |>.snoc (.takeSlot 1) (by decide)), by decide, by decide, by decide, by rfl⟩

end Accounts

end RootedC.ScopeTree
