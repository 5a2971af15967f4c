import Mathlib
import RootedC.Proofs.Lowering.Pending
import RootedC.Proofs.Typing.RootSlots

/-!
Root tables as generated code uses them. A body that uses root slots sets up a table first that has
room for all of them, no two instructions of a body set the same slot, and a slot is cleared only
behind the instruction that has set it, on every path to the clearing.
-/
namespace RootedC

open Code

namespace Code

/-- An instruction of a body, in the list itself or in an arm of a branch, and the instructions that
stand before it in its own list and in the lists around it. -/
inductive Occurs (i : Instr) : List Instr → List Instr → Prop
  | head {more : List Instr} : Occurs i (i :: more) []
  | tail {j : Instr} {more before : List Instr} (h : Occurs i more before) :
    Occurs i (j :: more) (j :: before)
  | thenArm {x : Operand} {is js more before : List Instr} (h : Occurs i is before) :
    Occurs i (.branch x is js :: more) before
  | elseArm {x : Operand} {is js more before : List Instr} (h : Occurs i js before) :
    Occurs i (.branch x is js :: more) before

mutual

/-- The slots that an instruction sets, in its arms as well. -/
def Instr.slotsSet : Instr → List Nat
  | .setRoot slot _ => [slot]
  | .branch _ is js => slotsSetIn is ++ slotsSetIn js
  | .rootTable _ | .clearRoot _ | .frame _ | .define _ _ _ | .store _ _ | .ret _ | .eval _ => []

def slotsSetIn : List Instr → List Nat
  | [] => []
  | i :: more => i.slotsSet ++ slotsSetIn more

end

/-- A slot is cleared only where it was set before. -/
def ClearsOnlySet (is : List Instr) : Prop :=
  ∀ slot before, Occurs (.clearRoot slot) is before → ∃ x, .setRoot slot x ∈ before

/-- The table of a body holds all slots that its instructions use. Without a table the frame has no
roots, and no instruction uses a slot. -/
inductive HasTable : List Instr → Prop
  | table {n : Nat} {rest : List Instr} (hn : 0 < n)
    (hslots : ∀ i before, Occurs i (.rootTable n :: .frame n :: rest) before →
      ∀ slot ∈ i.slot?, slot < n) : HasTable (.rootTable n :: .frame n :: rest)
  | none {rest : List Instr} (hslots : ∀ i before, Occurs i (.frame 0 :: rest) before →
      i.slot? = none) : HasTable (.frame 0 :: rest)

/-- How a body uses its root slots. -/
structure Disciplined (body : List Instr) : Prop where
  table : HasTable body
  once : (slotsSetIn body).Nodup
  cleared : ClearsOnlySet body

theorem slotsSetIn_append (is js : List Instr) :
    slotsSetIn (is ++ js) = slotsSetIn is ++ slotsSetIn js := by
  induction is with
  | nil => rfl
  | cons i more ih => rw [List.cons_append, slotsSetIn, slotsSetIn, ih, List.append_assoc]

theorem slotsSetIn_singleton (i : Instr) : slotsSetIn [i] = i.slotsSet := by
  rw [slotsSetIn, slotsSetIn, List.append_nil]

namespace Occurs

variable {i : Instr} {is js before : List Instr}

theorem of_append (h : Occurs i (is ++ js) before) :
    Occurs i is before ∨ ∃ inner, before = is ++ inner ∧ Occurs i js inner := by
  induction is generalizing before with
  | nil => exact .inr ⟨before, rfl, h⟩
  | cons j more ih =>
    cases h with
    | head => exact .inl .head
    | thenArm h => exact .inl (.thenArm h)
    | elseArm h => exact .inl (.elseArm h)
    | tail h =>
      rcases ih h with hmore | ⟨inner, rfl, hjs⟩
      · exact .inl (.tail hmore)
      · exact .inr ⟨inner, rfl, hjs⟩

theorem mem_of_clears {slot : Nat} {slots : List Nat}
    (h : Occurs (.clearRoot slot) (slots.map .clearRoot) before) : slot ∈ slots := by
  induction slots generalizing before with
  | nil => cases h
  | cons s more ih =>
    cases h with
    | head => exact List.mem_cons_self
    | tail h => exact List.mem_cons_of_mem s (ih h)

/-- A slot that an instruction sets, or one before it, is a slot of the body. -/
theorem mem_slotsSetIn (h : Occurs i is before) {slot : Nat} {x : Operand}
    (hset : i = .setRoot slot x ∨ .setRoot slot x ∈ before) : slot ∈ slotsSetIn is := by
  induction h with
  | head =>
    rcases hset with rfl | hset
    · exact List.mem_append_left _ (List.mem_singleton_self slot)
    · cases hset
  | @tail j more before h ih =>
    rw [slotsSetIn, List.mem_append]
    rcases hset with hi | hset
    · exact .inr (ih (.inl hi))
    · rcases List.mem_cons.mp hset with rfl | hset
      · exact .inl (List.mem_singleton_self slot)
      · exact .inr (ih (.inr hset))
  | thenArm h ih =>
    rw [slotsSetIn, Instr.slotsSet]
    exact List.mem_append_left _ (List.mem_append_left _ (ih hset))
  | elseArm h ih =>
    rw [slotsSetIn, Instr.slotsSet]
    exact List.mem_append_left _ (List.mem_append_right _ (ih hset))

end Occurs

namespace ClearsOnlySet

variable {is js : List Instr}

theorem append (h : ClearsOnlySet is) (h' : ClearsOnlySet js) : ClearsOnlySet (is ++ js) := by
  intro slot before ho
  rcases ho.of_append with hleft | ⟨inner, rfl, hright⟩
  · exact h slot before hleft
  · obtain ⟨x, hx⟩ := h' slot inner hright
    exact ⟨x, List.mem_append_right _ hx⟩

theorem nil : ClearsOnlySet [] := by
  intro slot before ho
  cases ho

/-- The slots that are cleared at the end are set before, in the list itself. -/
theorem append_clears (h : ClearsOnlySet is) {slots : List Nat}
    (hset : ∀ slot ∈ slots, ∃ x, .setRoot slot x ∈ is) :
    ClearsOnlySet (is ++ slots.map .clearRoot) := by
  intro slot before ho
  rcases ho.of_append with hleft | ⟨inner, rfl, hclear⟩
  · exact h slot before hleft
  · obtain ⟨x, hx⟩ := hset slot hclear.mem_of_clears
    exact ⟨x, List.mem_append_left _ hx⟩

end ClearsOnlySet

/-- The code of some nodes: it sets slots of these nodes, each no more often than they stand there,
and clears only what it has set. -/
structure Rooting (is : List Instr) (es : List Typed.Expr) : Prop where
  slots : (slotsSetIn is).Sublist (es.filterMap Typed.Expr.root?)
  cleared : ClearsOnlySet is

namespace Rooting

variable {is js : List Instr} {es es' : List Typed.Expr}

theorem nil (es : List Typed.Expr) : Rooting [] es :=
  ⟨List.nil_sublist _, .nil⟩

theorem append (h : Rooting is es) (h' : Rooting js es') : Rooting (is ++ js) (es ++ es') := by
  refine ⟨?_, h.cleared.append h'.cleared⟩
  rw [slotsSetIn_append, List.filterMap_append]
  exact h.slots.append h'.slots

/-- More nodes than those the code comes from. -/
theorem more (h : Rooting is es) (es' : List Typed.Expr) : Rooting is (es ++ es') := by
  simpa using h.append (nil es')

/-- An instruction that uses no slot and has no arms. -/
theorem snoc (h : Rooting is es) {i : Instr} (hset : i.slotsSet = []) (hslot : i.slot? = none)
    (hi : ∀ x js ks, i ≠ .branch x js ks) : Rooting (is ++ [i]) es := by
  have hone : Rooting [i] [] := by
    refine ⟨by rw [slotsSetIn_singleton, hset]; exact List.nil_sublist _, ?_⟩
    intro slot before ho
    cases ho with
    | head => cases hslot
    | tail ho => cases ho
    | thenArm _ | elseArm _ => exact absurd rfl (hi _ _ _)
  simpa using h.append hone

theorem branch (h : Rooting is es) (h' : Rooting js es') (x : Operand) :
    Rooting [.branch x is js] (es ++ es') := by
  refine ⟨?_, ?_⟩
  · rw [slotsSetIn_singleton, Instr.slotsSet, List.filterMap_append]
    exact h.slots.append h'.slots
  · intro slot before ho
    cases ho with
    | tail ho => cases ho
    | thenArm ho => exact h.cleared slot before ho
    | elseArm ho => exact h'.cleared slot before ho

theorem rightArm (h : Rooting is es) (op : BinaryOp) (x : Operand) :
    Rooting [.branch x (Lower.rightArm op is).1 (Lower.rightArm op is).2] es := by
  unfold Lower.rightArm
  split
  · simpa using h.branch (.nil []) x
  · exact (nil []).branch h x

theorem setRoot (e : Typed.Expr) (target : Var) : Rooting (Lower.setRoot e.root? target) [e] := by
  unfold Lower.setRoot
  cases hr : e.root? with
  | none => exact .nil _
  | some slot =>
    refine ⟨?_, ?_⟩
    · rw [List.filterMap_cons_some hr]
      exact List.Sublist.refl _
    · intro s before ho
      cases ho with
      | tail ho => cases ho

end Rooting

end Code

theorem Lower.clearRoots_eq (ds : List (String × Typed.Expr)) :
    Lower.clearRoots ds = (ds.filterMap fun d => d.2.root?).map .clearRoot := by
  rw [Lower.clearRoots, List.map_filterMap]

/-- The declarations' slots are cleared where all of them have been set. -/
theorem Code.Rooting.clearRoots {is : List Instr} {es : List Typed.Expr} (h : Rooting is es)
    {ds : List (String × Typed.Expr)}
    (hset : ∀ d ∈ ds, ∀ slot ∈ d.2.root?, ∃ x, .setRoot slot x ∈ is) :
    Rooting (is ++ Lower.clearRoots ds) es := by
  rw [Lower.clearRoots_eq]
  refine ⟨?_, h.cleared.append_clears fun slot hslot => ?_⟩
  · have hnone : ∀ slots : List Nat, slotsSetIn (slots.map .clearRoot) = [] := by
      intro slots
      induction slots with
      | nil => rfl
      | cons s more ih => exact ih
    rw [slotsSetIn_append, hnone, List.append_nil]
    exact h.slots
  · obtain ⟨d, hd, hs⟩ := List.mem_filterMap.mp hslot
    exact hset d hd slot hs

namespace Typed.Expr

/-- A call or a let with a slot sets it, outside all branches of its code. -/
theorem setRoot_mem_lower {e : Expr} {b b' : Builder} {x : Lowered} (h : e.lower b = .ok x b')
    (he : e.isCallOrLet = true) {slot : Nat} (hs : e.root? = some slot) :
    ∃ y, .setRoot slot y ∈ x.code := by
  cases e with
  | call info callee arguments =>
    obtain ⟨code, values, b₁, call, b₂, c, -, -, -, -, rfl⟩ := lower_call h
    have hroot : info.root? = some slot := hs
    refine ⟨.load b₂.temporary.1, List.mem_append_right _ ?_⟩
    rw [hroot]
    exact List.mem_singleton_self _
  | letIn info scope declarations body =>
    obtain ⟨code, b₁, y, b₂, -, -, ⟨hnone, -, -⟩ | ⟨s, c, hsome, -, -, rfl⟩⟩ := lower_let h
    · cases hnone.symm.trans hs
    · obtain rfl : s = slot := Option.some.inj (hsome.symm.trans hs)
      exact ⟨.load b₂.temporary.1, by simp⟩
  | _ => cases he

theorem self_mem_nodes (e : Expr) : e ∈ e.nodes := by
  cases e <;> simp [nodes]

/-- Only calls and lets have slots. -/
def OnlyCallsAndLets (es : List Expr) : Prop :=
  ∀ e ∈ es, e.root?.isSome = true → e.isCallOrLet = true

theorem onlyCallsAndLets_append {es es' : List Expr} :
    OnlyCallsAndLets (es ++ es') ↔ OnlyCallsAndLets es ∧ OnlyCallsAndLets es' :=
  List.forall_mem_append

theorem setRoot_mem_lowerDeclarations {ds : List (String × Expr)} {scope : Nat}
    {seen : List (String × String)} {b b' : Builder} {code : List Instr}
    (h : lowerDeclarations scope seen ds b = .ok code b')
    (hn : OnlyCallsAndLets (nodesOfDeclarations ds)) :
    ∀ d ∈ ds, ∀ slot ∈ d.2.root?, ∃ x, .setRoot slot x ∈ code := by
  induction ds generalizing seen b code with
  | nil => simp
  | cons d more ih =>
    obtain ⟨name, value⟩ := d
    obtain ⟨y, b₁, c, i, code', hy, -, -, hm, rfl⟩ := lowerDeclarations_cons h
    rw [nodesOfDeclarations, onlyCallsAndLets_append] at hn
    refine List.forall_mem_cons.mpr ⟨fun slot hs => ?_, fun d hd slot hs => ?_⟩
    · have hkind := hn.1 value value.self_mem_nodes (Option.isSome_of_mem hs)
      obtain ⟨x, hx⟩ := setRoot_mem_lower hy hkind hs
      exact ⟨x, List.mem_append_left _ (List.mem_append_left _ hx)⟩
    · obtain ⟨x, hx⟩ := ih hm hn.2 d hd slot hs
      exact ⟨x, List.mem_append_right _ hx⟩

mutual

theorem lower_rooting : ∀ {e : Expr} {b b' : Builder} {x : Lowered}, e.lower b = .ok x b' →
    OnlyCallsAndLets e.nodes → Rooting x.code e.nodes
  | .integer _ _, b, b', x, h, hn | .boolean _ _, b, b', x, h, hn | .unit _, b, b', x, h, hn
  | .name _ _ _ _, b, b', x, h, hn => by
    rw [lower] at h
    obtain ⟨rfl, rfl⟩ := pure_eq_ok.mp h
    exact .nil _
  | .text _ raw length, b, b', x, h, hn => by
    obtain ⟨rfl, rfl⟩ := lower_text h
    exact .nil _
  | .unary _ _ operand, b, b', x, h, hn => by
    obtain ⟨y, hy, rfl⟩ := lower_unary h
    rw [nodes, onlyCallsAndLets_append] at hn
    rw [nodes]
    exact (lower_rooting hy hn.1).more _
  | .binary _ op left right, b, b', x, h, hn => by
    obtain ⟨l, r, b₁, b₂, hl, hr, hrest⟩ := lower_binary h
    rw [nodes, onlyCallsAndLets_append, onlyCallsAndLets_append] at hn
    have hleft := lower_rooting hl hn.1.1
    have hright := lower_rooting hr hn.1.2
    rw [nodes]
    apply Rooting.more
    rcases hrest with ⟨-, rfl, c, -, rfl⟩ | ⟨-, rfl, rfl⟩
    · have hdefine := hleft.snoc (i := .define c b₂.temporary.1 (some l.value)) rfl rfl (by simp)
      have hstore := hright.snoc (i := .store b₂.temporary.1 r.value) rfl rfl (by simp)
      have hall := hdefine.append (hstore.rightArm op (.load b₂.temporary.1))
      rwa [List.append_assoc] at hall
    · exact hleft.append hright
  | .call info callee arguments, b, b', x, h, hn => by
    obtain ⟨code, values, b₁, call, b₂, c, ha, -, -, -, rfl⟩ := lower_call h
    rw [nodes, onlyCallsAndLets_append] at hn
    have hcall := (lowerArguments_rooting ha hn.1).snoc
      (i := .define c b₂.temporary.1 (some (call values))) rfl rfl (by simp)
    rw [nodes]
    exact hcall.append (.setRoot (.call info callee arguments) b₂.temporary.1)
  | .branch info condition thenArm elseArm, b, b', x, h, hn => by
    obtain ⟨y, b₁, c, t, b₂, f, hy, -, ht, hf, rfl⟩ := lower_branch h
    rw [nodes] at hn
    simp only [onlyCallsAndLets_append] at hn
    have hthen := (lower_rooting ht hn.1.1.2).snoc (i := .store b₁.temporary.1 t.value) rfl rfl
      (by simp)
    have helse := (lower_rooting hf hn.1.2).snoc (i := .store b₁.temporary.1 f.value) rfl rfl
      (by simp)
    have hdefine := (lower_rooting hy hn.1.1.1).snoc (i := .define c b₁.temporary.1 none) rfl rfl
      (by simp)
    have hall := (hdefine.append (hthen.branch helse y.value)).more
      [.branch info condition thenArm elseArm]
    rw [nodes]
    simpa only [List.append_assoc, List.singleton_append] using hall
  | .letIn info scope declarations body, b, b', x, h, hn => by
    obtain ⟨code, b₁, y, b₂, hdecls, hy, hrest⟩ := lower_let h
    rw [nodes, onlyCallsAndLets_append, onlyCallsAndLets_append] at hn
    have hset := setRoot_mem_lowerDeclarations hdecls hn.1.1
    have hboth := (lowerDeclarations_rooting hdecls hn.1.1).append (lower_rooting hy hn.1.2)
    rw [nodes]
    rcases hrest with ⟨-, rfl, rfl⟩ | ⟨slot, c, hslot, -, rfl, rfl⟩
    · refine (hboth.more _).clearRoots fun d hd slot hs => ?_
      obtain ⟨z, hz⟩ := hset d hd slot hs
      exact ⟨z, List.mem_append_left _ hz⟩
    · have hdefine := hboth.snoc (i := .define c b₂.temporary.1 (some y.value)) rfl rfl (by simp)
      have hkept := hdefine.append (.setRoot (.letIn info scope declarations body) b₂.temporary.1)
      have hroot : (Expr.letIn info scope declarations body).root? = some slot := hslot
      rw [hroot, List.append_assoc] at hkept
      refine hkept.clearRoots fun d hd s hs => ?_
      obtain ⟨z, hz⟩ := hset d hd s hs
      exact ⟨z, List.mem_append_left _ (List.mem_append_left _ hz)⟩
  | .block _ body, b, b', x, h, hn => by
    rw [lower] at h
    rw [nodes, onlyCallsAndLets_append] at hn
    rw [nodes]
    exact (lowerBody_rooting h hn.1).more _

theorem lowerBody_rooting : ∀ {es : List Expr} {b b' : Builder} {x : Lowered},
    lowerBody es b = .ok x b' → OnlyCallsAndLets (nodesOfAll es) → Rooting x.code (nodesOfAll es)
  | [], b, b', x, h, hn => by
    rw [lowerBody] at h
    obtain ⟨rfl, rfl⟩ := pure_eq_ok.mp h
    exact .nil _
  | [e], b, b', x, h, hn => by
    rw [lowerBody] at h
    rw [nodesOfAll, onlyCallsAndLets_append] at hn
    rw [nodesOfAll]
    exact (lower_rooting h hn.1).more _
  | e :: next :: more, b, b', x, h, hn => by
    obtain ⟨code, b₁, y, hd, hy, rfl⟩ := lowerBody_cons h
    rw [nodesOfAll, onlyCallsAndLets_append] at hn
    have hfirst : Rooting code e.nodes := by
      cases e with
      | call info callee arguments =>
        cases hd with
        | @call _ _ _ _ values _ call ha hc =>
          -- A call whose value is not read sets no slot, although it has one.
          rw [nodes, onlyCallsAndLets_append] at hn
          rw [nodes]
          have heval := (lowerArguments_rooting ha hn.1.1).snoc (i := .eval (call values)) rfl rfl
            (by simp)
          exact heval.more _
        | other he => exact lower_rooting he hn.1
      | _ =>
        cases hd with
        | other he => exact lower_rooting he hn.1
    rw [nodesOfAll]
    exact hfirst.append (lowerBody_rooting hy hn.2)

theorem lowerArguments_rooting : ∀ {es : List Expr} {b b' : Builder} {code : List Instr}
    {values : List Operand}, lowerArguments es b = .ok (code, values) b' →
      OnlyCallsAndLets (nodesOfAll es) → Rooting code (nodesOfAll es)
  | [], b, b', code, values, h, hn => by
    rw [lowerArguments] at h
    obtain ⟨hnil, rfl⟩ := pure_eq_ok.mp h
    cases hnil
    exact .nil _
  | e :: more, b, b', code, values, h, hn => by
    obtain ⟨y, b₁, code', values', hy, hm, rfl, -⟩ := lowerArguments_cons h
    rw [nodesOfAll, onlyCallsAndLets_append] at hn
    rw [nodesOfAll]
    exact (lower_rooting hy hn.1).append (lowerArguments_rooting hm hn.2)

theorem lowerDeclarations_rooting : ∀ {ds : List (String × Expr)} {scope : Nat}
    {seen : List (String × String)} {b b' : Builder} {code : List Instr},
    lowerDeclarations scope seen ds b = .ok code b' → OnlyCallsAndLets (nodesOfDeclarations ds) →
      Rooting code (nodesOfDeclarations ds)
  | [], scope, seen, b, b', code, h, hn => by
    rw [lowerDeclarations] at h
    obtain ⟨rfl, rfl⟩ := pure_eq_ok.mp h
    exact .nil _
  | (z, value) :: more, scope, seen, b, b', code, h, hn => by
    obtain ⟨y, b₁, c, i, code', hy, -, hi, hm, rfl⟩ := lowerDeclarations_cons h
    rw [nodesOfDeclarations, onlyCallsAndLets_append] at hn
    rw [nodesOfDeclarations]
    have hvalue := lower_rooting hy hn.1
    have hdeclared : Rooting (y.code ++ [i]) value.nodes := by
      rcases hi with rfl | rfl
      · exact hvalue.snoc rfl rfl (by simp)
      · exact hvalue.snoc rfl rfl (by simp)
    exact hdeclared.append (lowerDeclarations_rooting hm hn.2)

end

end Typed.Expr

namespace Code

theorem slotsSetIn_prologue (n : Nat) : slotsSetIn (Lower.prologue n) = [] := by
  unfold Lower.prologue
  split <;> rfl

theorem ClearsOnlySet.prologue (n : Nat) : ClearsOnlySet (Lower.prologue n) := by
  intro slot before ho
  unfold Lower.prologue at ho
  split at ho
  · cases ho with
    | tail ho =>
      cases ho with
      | tail ho => cases ho
  · cases ho with
    | tail ho => cases ho

/-- A slot that is cleared was set, so the slots that are set are all that a body uses. -/
theorem ClearsOnlySet.slot_mem {body before : List Instr} {i : Instr} (h : ClearsOnlySet body)
    (ho : Occurs i body before) {slot : Nat} (hslot : slot ∈ i.slot?) :
    slot ∈ slotsSetIn body := by
  cases i with
  | setRoot s x =>
    obtain rfl : s = slot := Option.some.inj hslot
    exact ho.mem_slotsSetIn (.inl rfl)
  | clearRoot s =>
    obtain rfl : s = slot := Option.some.inj hslot
    obtain ⟨x, hx⟩ := h s before ho
    exact ho.mem_slotsSetIn (.inr hx)
  | _ => cases hslot

/-- The table is as large as the number of slots handed out to the nodes. -/
theorem Disciplined.of_rooting {is : List Instr} {es : List Typed.Expr} {n : Nat}
    (h : Rooting is es) (hs : Typed.Slotted es 0 n) : Disciplined (Lower.prologue n ++ is) := by
  have hslots : (slotsSetIn (Lower.prologue n ++ is)).Sublist (List.range n) := by
    rw [slotsSetIn_append, slotsSetIn_prologue, List.nil_append]
    have hsub := h.slots
    rwa [hs.roots, Nat.sub_zero, ← List.range_eq_range'] at hsub
  have hcleared := (ClearsOnlySet.prologue n).append h.cleared
  have hused : ∀ i before, Occurs i (Lower.prologue n ++ is) before → ∀ slot ∈ i.slot?,
      slot < n := by
    intro i before ho slot hslot
    exact List.mem_range.mp (hslots.subset (hcleared.slot_mem ho hslot))
  refine ⟨?_, hslots.nodup List.nodup_range, hcleared⟩
  by_cases hn : 0 < n
  · have hbody : Lower.prologue n ++ is = .rootTable n :: .frame n :: is := by
      rw [Lower.prologue, if_pos hn]
      rfl
    rw [hbody] at hused ⊢
    exact .table hn hused
  · obtain rfl : n = 0 := by omega
    have hbody : Lower.prologue 0 ++ is = .frame 0 :: is := by
      rw [Lower.prologue, if_neg hn]
      rfl
    rw [hbody] at hused ⊢
    refine .none fun i before ho => ?_
    cases hslot : i.slot? with
    | none => rfl
    | some slot => exact absurd (hused i before ho slot hslot) (Nat.not_lt_zero slot)

/-- The code of the body of a checked procedure, with what stands behind it. -/
theorem Disciplined.of_lower {G : Bindings Ty} {P : Typed.Procedure Typed.Expr} {n n' : Nat}
    (hP : Lexical.ProcedureFits G P n n') {b b' : Builder} {x : Lowered}
    (hx : P.body.lower b = .ok x b') :
    Disciplined (Lower.prologue P.rootCount ++ x.code) ∧
      Disciplined (Lower.prologue P.rootCount ++ x.code ++ [Instr.ret x.value]) := by
  have hs := hP.slotted
  have hcode := Typed.Expr.lower_rooting hx fun e he hr => ((hs.rooted e he).mp hr).1
  refine ⟨.of_rooting hcode hs, ?_⟩
  rw [List.append_assoc]
  exact .of_rooting (hcode.snoc rfl rfl (by simp)) hs

end Code

/-- Root tables are used in order. Every body of the code of a checked module that uses a slot sets
up a table with room for it, sets no slot in two places, and clears a slot only behind the
instruction, in the same list or one around it, that has set the slot. -/
theorem Typed.Module.lower_disciplined {source : RootedC.Module} {tm : Typed.Module}
    {m : Code.Module} (hc : source.check = .ok tm) (hl : tm.lower = .ok m) :
    (∀ q ∈ m.procedures, Disciplined q.body) ∧ ∀ e ∈ m.entryPoint?, Disciplined e.body := by
  obtain ⟨G, hf⟩ := Lexical.moduleFits_of_check hc
  have hi := implements_of_lower hl hf.literals_constants
  constructor
  · intro q hq
    obtain ⟨name, P, n, n', himpl, hP⟩ := hi.exists_procedure hf hq
    cases himpl with
    | intro hd hb hx hm => exact (Disciplined.of_lower hP hx).2
  · intro e he
    obtain ⟨P, n, n', himpl, -, hP⟩ := hi.exists_entry hf he
    cases himpl with
    | intro hb hx hm => exact (Disciplined.of_lower hP hx).1

/-- `proc widen(s: str, b: bool) -> bool { if b { let t = str_concat(s, s) { b } } else { b } }`. -/
def Module.widening : Module :=
  let s : Span := .empty .nowhere
  let joined : Expr := .call (.name "str_concat" s) [.name "s" s, .name "s" s] s
  let body : Expr := .branch (.name "b" s) (.letIn [⟨"t", none, joined, s⟩] (.name "b" s) s)
    (some (.name "b" s)) s
  ⟨[.procedure "widen" ⟨[⟨"s", some (.name "str" .nowhere), s⟩,
    ⟨"b", some (.name "bool" .nowhere), s⟩], some (.name "bool" .nowhere), body, s⟩ s], s⟩

/-- The code of `widen`. The slot of `t` is set and cleared in the same arm. -/
def Module.wideningBody : List Instr :=
  [.rootTable 1, .frame 1, .define "bool" (.temporary 1 0) none,
    .branch (.load (.named 1 "b"))
      [.define "AjisaiString *" (.temporary 1 1)
        (some (.callBuiltinWithFrame "str_concat" [.load (.named 1 "s"), .load (.named 1 "s")])),
        .setRoot 0 (.load (.temporary 1 1)),
        .define "AjisaiString *" (.named 2 "t") (some (.load (.temporary 1 1))),
        .clearRoot 0, .store (.temporary 1 0) (.load (.named 1 "b"))]
      [.store (.temporary 1 0) (.load (.named 1 "b"))],
    .ret (.load (.temporary 1 0))]

theorem Typed.Module.widening_disciplined : ∃ tm m q, Module.widening.check = .ok tm ∧
    tm.lower = .ok m ∧ q ∈ m.procedures ∧ q.body = Module.wideningBody ∧ Disciplined q.body := by
  have h : (Module.widening.check.toOption.bind fun tm => tm.lower.toOption.bind fun m =>
      m.procedures[0]?.map (·.body)) = some Module.wideningBody := by
    cbv
  obtain ⟨tm, hc, h⟩ := Option.bind_eq_some_iff.mp h
  obtain ⟨m, hl, h⟩ := Option.bind_eq_some_iff.mp h
  obtain ⟨q, hq, hbody⟩ := Option.map_eq_some_iff.mp h
  rw [toOption_eq_some] at hc hl
  have hmem : q ∈ m.procedures := List.mem_of_getElem? hq
  exact ⟨tm, m, q, hc, hl, hmem, hbody, (lower_disciplined hc hl).1 q hmem⟩

end RootedC
