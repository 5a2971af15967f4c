import RootedC.Proofs.Lowering.Checked
import RootedC.Proofs.Typing.Activations

/-!
Root slots are handed out one by one. The slots that stand in the body of a checked procedure are
the numbers below the size of its root table, each once and in the order in which the values come
about; they stand at the calls and lets whose values may be on the heap and nowhere else. A check
never asks for a slot where there is no activation to take it from.
-/
namespace RootedC

namespace Typed

mutual

/-- The nodes of an expression, each one after the parts whose values it waits for. What stands in
the body of a literal belongs to the literal. -/
def Expr.nodes : Expr → List Expr
  | e@(.integer _ _) | e@(.boolean _ _) | e@(.text _ _ _) | e@(.unit _) | e@(.name _ _ _ _) => [e]
  | e@(.unary _ _ operand) => operand.nodes ++ [e]
  | e@(.binary _ _ left right) => left.nodes ++ right.nodes ++ [e]
  | e@(.call _ _ arguments) => nodesOfAll arguments ++ [e]
  | e@(.branch _ condition thenArm elseArm) =>
    condition.nodes ++ thenArm.nodes ++ elseArm.nodes ++ [e]
  | e@(.letIn _ _ declarations body) => nodesOfDeclarations declarations ++ body.nodes ++ [e]
  | e@(.block _ body) => nodesOfAll body ++ [e]

def nodesOfAll : List Expr → List Expr
  | [] => []
  | e :: more => e.nodes ++ nodesOfAll more

def nodesOfDeclarations : List (String × Expr) → List Expr
  | [] => []
  | (_, value) :: more => value.nodes ++ nodesOfDeclarations more

end

def Expr.isCallOrLet : Expr → Bool
  | .call _ _ _ | .letIn _ _ _ _ => true
  | _ => false

/-- Nodes that have taken the root slots from `n` on and below `n'`, in their order. -/
structure Slotted (es : List Expr) (n n' : Nat) : Prop where
  le : n ≤ n'
  roots : es.filterMap Expr.root? = List.range' n (n' - n)
  rooted : ∀ e ∈ es, e.root?.isSome = true ↔ e.isCallOrLet = true ∧ e.ty.mayBeHeap = true

namespace Slotted

variable {es es' : List Expr} {n m n' : Nat}

theorem nil (n : Nat) : Slotted [] n n :=
  ⟨Nat.le_refl n, by simp, by simp⟩

theorem append (h : Slotted es n m) (h' : Slotted es' m n') : Slotted (es ++ es') n n' := by
  have hle := h.le
  have hle' := h'.le
  refine ⟨by omega, ?_, fun e he => ?_⟩
  · have hlen : n' - n = (m - n) + (n' - m) := by omega
    have hmid : n + (m - n) = m := by omega
    rw [List.filterMap_append, h.roots, h'.roots, hlen, ← List.range'_append_1, hmid]
  · rcases List.mem_append.mp he with he | he
    · exact h.rooted e he
    · exact h'.rooted e he

/-- A node that is neither a call nor a let takes no slot. -/
theorem snoc_plain {e : Expr} (h : Slotted es n m) (hroot : e.root? = none)
    (he : e.isCallOrLet = false) : Slotted (es ++ [e]) n m :=
  h.append ⟨Nat.le_refl m, by simp [hroot], by simp [hroot, he]⟩

/-- A call or a let takes the next slot if its value may be on the heap. -/
theorem snoc_rooted {e : Expr} {p q : Lexical.Place} (h : Slotted es n p.slot)
    (hroots : p.Roots e.ty e.root? q) (he : e.isCallOrLet = true) :
    Slotted (es ++ [e]) n q.slot := by
  refine h.append ?_
  cases hr : e.root? with
  | none =>
    rw [hr] at hroots
    obtain ⟨hty, rfl⟩ := hroots.of_none
    exact ⟨Nat.le_refl _, by simp [hr], by simp [hr, hty]⟩
  | some slot =>
    rw [hr] at hroots
    obtain ⟨hty, rfl, rfl⟩ := hroots.of_some
    exact ⟨Nat.le_succ _, by simp [hr], by simp [hr, he, hty]⟩

end Slotted

end Typed

namespace Lexical

open Typed

variable {G : Bindings Ty}

mutual

theorem Fits.slotted : ∀ {e : Typed.Expr} {fs : List Frame} {p q : Place}, Fits G fs e p q →
    Slotted e.nodes p.slot q.slot
  | .integer _ _, fs, p, q, h => by
    obtain ⟨-, hroot, rfl⟩ := h
    rw [Typed.Expr.nodes]
    exact (Slotted.nil q.slot).snoc_plain hroot rfl
  | .boolean _ _, fs, p, q, h => by
    obtain ⟨-, hroot, rfl⟩ := h
    rw [Typed.Expr.nodes]
    exact (Slotted.nil q.slot).snoc_plain hroot rfl
  | .text _ _ _, fs, p, q, h => by
    obtain ⟨-, hroot, -, rfl⟩ := h
    rw [Typed.Expr.nodes]
    exact (Slotted.nil q.slot).snoc_plain hroot rfl
  | .unit _, fs, p, q, h => by
    obtain ⟨-, hroot, rfl⟩ := h
    rw [Typed.Expr.nodes]
    exact (Slotted.nil q.slot).snoc_plain hroot rfl
  | .name _ _ _ _, fs, p, q, h => by
    obtain ⟨-, hroot, -, rfl⟩ := h
    rw [Typed.Expr.nodes]
    exact (Slotted.nil q.slot).snoc_plain hroot rfl
  | .unary _ _ operand, fs, p, q, h => by
    rw [Fits] at h
    obtain ⟨-, hroot, -, hx⟩ := h
    rw [Typed.Expr.nodes]
    exact hx.slotted.snoc_plain hroot rfl
  | .binary _ _ left right, fs, p, q, h => by
    rw [Fits] at h
    obtain ⟨-, hroot, -, -, m, hl, hr⟩ := h
    rw [Typed.Expr.nodes]
    exact (hl.slotted.append hr.slotted).snoc_plain hroot rfl
  | .call _ callee arguments, fs, p, q, h => by
    rw [Fits] at h
    obtain ⟨tys, m, m', hc, ha, hroots⟩ := h
    have hes := ha.slotted
    rw [hc.slot_eq] at hes
    rw [Typed.Expr.nodes]
    exact hes.snoc_rooted hroots rfl
  | .branch _ condition thenArm elseArm, fs, p, q, h => by
    rw [Fits] at h
    obtain ⟨hroot, -, -, -, m, m', hc, ht, hf⟩ := h
    rw [Typed.Expr.nodes]
    exact ((hc.slotted.append ht.slotted).append hf.slotted).snoc_plain hroot rfl
  | .letIn _ _ declarations body, fs, p, q, h => by
    rw [Fits] at h
    obtain ⟨-, -, fs', m, m', hd, hx, hroots⟩ := h
    rw [Typed.Expr.nodes]
    exact (hd.slotted.append hx.slotted).snoc_rooted hroots rfl
  | .block _ body, fs, p, q, h => by
    rw [Fits] at h
    obtain ⟨-, hroot, hes⟩ := h
    rw [Typed.Expr.nodes]
    exact hes.slotted.snoc_plain hroot rfl

theorem AllFit.slotted : ∀ {es : List Typed.Expr} {fs : List Frame} {p q : Place},
    AllFit G fs es p q → Slotted (nodesOfAll es) p.slot q.slot
  | [], fs, p, q, h => by
    rw [AllFit] at h
    rw [h, nodesOfAll]
    exact .nil p.slot
  | e :: more, fs, p, q, h => by
    rw [AllFit] at h
    obtain ⟨m, he, hm⟩ := h
    rw [nodesOfAll]
    exact he.slotted.append hm.slotted

theorem ArgumentsFit.slotted : ∀ {es : List Typed.Expr} {fs : List Frame} {tys : List Ty}
    {p q : Place}, ArgumentsFit G fs es tys p q → Slotted (nodesOfAll es) p.slot q.slot
  | [], fs, [], p, q, h => by
    rw [ArgumentsFit] at h
    rw [h, nodesOfAll]
    exact .nil p.slot
  | [], fs, _ :: _, p, q, h => h.elim
  | _ :: _, fs, [], p, q, h => h.elim
  | e :: more, fs, ty :: tys, p, q, h => by
    rw [ArgumentsFit] at h
    obtain ⟨-, m, he, hm⟩ := h
    rw [nodesOfAll]
    exact he.slotted.append hm.slotted

theorem DeclarationsFit.slotted : ∀ {ds : List (String × Typed.Expr)} {scope : Nat}
    {fs fs' : List Frame} {p q : Place}, DeclarationsFit G scope ds fs fs' p q →
      Slotted (nodesOfDeclarations ds) p.slot q.slot
  | [], scope, fs, fs', p, q, h => by
    rw [DeclarationsFit] at h
    rw [h.2, nodesOfDeclarations]
    exact .nil p.slot
  | (_, x) :: more, scope, fs, fs', p, q, h => by
    rw [DeclarationsFit] at h
    obtain ⟨m, hx, hm⟩ := h
    rw [nodesOfDeclarations]
    exact hx.slotted.append hm.slotted

end

/-- The slots of a procedure are the numbers below the size of its root table. -/
theorem ProcedureFits.slotted {P : Typed.Procedure Typed.Expr} {n n' : Nat}
    (h : ProcedureFits G P n n') : Slotted P.body.nodes 0 P.rootCount :=
  Fits.slotted h.body

end Lexical

theorem Ty.mayBeHeap_iff {ty : Ty} :
    ty.mayBeHeap = true ↔ ty ≠ .i32 ∧ ty ≠ .bool ∧ ty ≠ .unit := by
  cases ty <;> simp [mayBeHeap]

/-- Root slots are handed out exactly. In every procedure of a checked module, in every literal and
in the entry, the nodes with a slot are the calls and lets whose type is not `i32`, `bool` or
`unit`, and their slots are, in order, all the numbers below the size of the root table. A check
never fails for the lack of an activation. -/
theorem Module.check_rootSlots (m : Module) :
    (∀ d, m.check = .error d → d.cause ≠ .noActivation) ∧
    ∀ tm, m.check = .ok tm → ∀ P,
      P ∈ tm.procedures.map (·.2) ∨ P ∈ tm.literals ∨ P ∈ tm.entryPoint? →
      (∀ e ∈ P.body.nodes, e.root?.isSome = true ↔
        e.isCallOrLet = true ∧ e.ty ≠ .i32 ∧ e.ty ≠ .bool ∧ e.ty ≠ .unit) ∧
      P.body.nodes.filterMap Typed.Expr.root? = List.range P.rootCount := by
  refine ⟨fun d => cause_of_check, fun tm hm P hP => ?_⟩
  obtain ⟨G, hG⟩ := Lexical.moduleFits_of_check hm
  have hfits : ∃ n n', Lexical.ProcedureFits G P n n' := by
    rcases hP with hP | hP | hP
    · obtain ⟨p, hp, rfl⟩ := List.mem_map.mp hP
      exact hG.units _ (Typed.Module.user_mem_units hp)
    · exact hG.units _ (Typed.Module.literal_mem_units hP)
    · exact (hG.entryPoint P hP).2
  obtain ⟨n, n', hfits⟩ := hfits
  have hslotted := hfits.slotted
  refine ⟨fun e he => ?_, ?_⟩
  · rw [hslotted.rooted e he, Ty.mayBeHeap_iff]
  · rw [hslotted.roots, List.range_eq_range', Nat.sub_zero]

/-- `proc label(s: str) -> str { let a = str_concat(s, "x"), b = str_concat(a, a) { proc(t: str, n)
{ -n; str_repeat(str_concat(t, t), n) }(b, 2) } }`. The type of `n` is found, so the literal is
checked twice. -/
def Module.relabelling : Module :=
  let s : Span := .empty .nowhere
  let str : TypeExpr := .name "str" .nowhere
  let join (x y : Expr) : Expr := .call (.name "str_concat" s) [x, y] s
  let literal : Expr := .procedure ⟨[⟨"t", some str, s⟩, ⟨"n", none, s⟩], none,
    .block [.unary ⟨.dash, "-", s⟩ (.name "n" s) s,
      .call (.name "str_repeat" s) [join (.name "t" s) (.name "t" s), .name "n" s] s] s, s⟩
  ⟨[.procedure "label" ⟨[⟨"s", some str, s⟩], some str,
    .letIn [⟨"a", none, join (.name "s" s) (.text "x" s), s⟩,
      ⟨"b", none, join (.name "a" s) (.name "a" s), s⟩]
      (.block [.call literal [.name "b" s, .number 2 s] s] s) s, s⟩ s], s⟩

theorem Module.relabelling_rootSlots : ∃ tm, relabelling.check = .ok tm ∧
    (∃ P ∈ tm.procedures.map (·.2), P.body.nodes.filterMap Typed.Expr.root? = [0, 1, 2, 3]) ∧
    ∃ P ∈ tm.literals, P.body.nodes.filterMap Typed.Expr.root? = [0, 1] := by
  have h : (relabelling.check.toOption.map fun tm =>
      ((tm.procedures.map (·.2)).map (·.rootCount), tm.literals.map (·.rootCount))) =
      some ([4], [2]) := by
    decide +kernel
  obtain ⟨tm, hc, h⟩ := Option.map_eq_some_iff.mp h
  rw [toOption_eq_some] at hc
  obtain ⟨hprocedures, hliterals⟩ := Prod.mk.inj h
  obtain ⟨P, hP, hcount⟩ : ∃ P ∈ tm.procedures.map (·.2), P.rootCount = 4 :=
    List.mem_map.mp (by rw [hprocedures]; exact List.mem_singleton_self 4)
  obtain ⟨Q, hQ, hcount'⟩ : ∃ Q ∈ tm.literals, Q.rootCount = 2 :=
    List.mem_map.mp (by rw [hliterals]; exact List.mem_singleton_self 2)
  refine ⟨tm, hc, ⟨P, hP, ?_⟩, Q, hQ, ?_⟩
  · rw [((check_rootSlots relabelling).2 tm hc P (.inl hP)).2, hcount]
    rfl
  · rw [((check_rootSlots relabelling).2 tm hc Q (.inr (.inl hQ))).2, hcount']
    rfl

end RootedC
