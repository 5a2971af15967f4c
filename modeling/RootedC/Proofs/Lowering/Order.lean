import RootedC.Proofs.Lowering.Refusal
import RootedC.Proofs.Typing.Order

/-!
The order of top-level items decides neither whether a module is accepted nor whether it has code.
The typed procedures, the entry and the constants are the same up to the numbers of scopes.
-/
namespace RootedC

theorem exists_mem_iff_of_perm_map {α : Type} {f : α → α} {l l' : List α} (h : (l.map f).Perm l')
    {q : α → Prop} (hq : ∀ a, q (f a) ↔ q a) : (∃ a ∈ l', q a) ↔ ∃ a ∈ l, q a := by
  simp only [← h.mem_iff, List.mem_map]
  constructor
  · rintro ⟨_, ⟨a, ha, rfl⟩, hqa⟩
    exact ⟨a, ha, (hq a).mp hqa⟩
  · rintro ⟨a, ha, hqa⟩
    exact ⟨f a, ⟨a, ha, rfl⟩, (hq a).mpr hqa⟩

theorem eq_of_perm_of_length_le_one {α : Type} {l l' : List α} (h : l.Perm l')
    (hl : l'.length ≤ 1) : l = l' := by
  match l', hl with
  | [], _ => exact h.eq_nil
  | [_], _ => exact List.perm_singleton.mp h

namespace Typed

variable {r : Relabel}

mutual

theorem Expr.literals_relabel : ∀ e : Expr,
    (e.relabel r).literals = e.literals.map (Procedure.relabel r)
  | .integer _ _ | .boolean _ _ | .text _ _ _ | .unit _ | .name _ _ _ _ => rfl
  | .unary _ _ x => by
    simp only [Expr.relabel, Expr.literals, Expr.literals_relabel x]
  | .binary _ _ x y => by
    simp only [Expr.relabel, Expr.literals, Expr.literals_relabel x, Expr.literals_relabel y,
      List.map_append]
  | .call _ c es => by
    simp only [Expr.relabel, Expr.literals, literalsOfAll_relabel es, literalsOfCallee_relabel c,
      List.map_append]
  | .branch _ c x y => by
    simp only [Expr.relabel, Expr.literals, Expr.literals_relabel c, Expr.literals_relabel x,
      Expr.literals_relabel y, List.map_append]
  | .letIn _ _ ds x => by
    simp only [Expr.relabel, Expr.literals, literalsOfDeclarations_relabel ds,
      Expr.literals_relabel x, List.map_append]
  | .block _ es => by
    simp only [Expr.relabel, Expr.literals, literalsOfAll_relabel es]

theorem literalsOfAll_relabel : ∀ es : List Expr,
    literalsOfAll (Expr.relabelAll r es) = (literalsOfAll es).map (Procedure.relabel r)
  | [] => rfl
  | e :: more => by
    rw [Expr.relabelAll, literalsOfAll, literalsOfAll, Expr.literals_relabel e,
      literalsOfAll_relabel more, List.map_append]

theorem literalsOfDeclarations_relabel : ∀ ds : List (String × Expr),
    literalsOfDeclarations (Expr.relabelDeclarations r ds) =
      (literalsOfDeclarations ds).map (Procedure.relabel r)
  | [] => rfl
  | (_, e) :: more => by
    rw [Expr.relabelDeclarations, literalsOfDeclarations, literalsOfDeclarations,
      Expr.literals_relabel e, literalsOfDeclarations_relabel more, List.map_append]

theorem literalsOfCallee_relabel : ∀ c : Callee Expr,
    literalsOfCallee (Expr.relabelCallee r c) = (literalsOfCallee c).map (Procedure.relabel r)
  | .builtin _ | .global _ => rfl
  | .literal ⟨scope, parameters, result, body, size, span⟩ => by
    rw [Expr.relabelCallee, literalsOfCallee, literalsOfCallee, Expr.literals_relabel body,
      List.map_append]
    rfl

end

mutual

theorem Expr.nodes_relabel : ∀ e : Expr, (e.relabel r).nodes = e.nodes.map (Expr.relabel r)
  | .integer _ _ | .boolean _ _ | .text _ _ _ | .unit _ | .name _ _ _ _ => rfl
  | .unary _ _ x => by
    simp only [Expr.relabel, Expr.nodes, Expr.nodes_relabel x, List.map_append, List.map_cons,
      List.map_nil]
  | .binary _ _ x y => by
    simp only [Expr.relabel, Expr.nodes, Expr.nodes_relabel x, Expr.nodes_relabel y,
      List.map_append, List.map_cons, List.map_nil]
  | .call _ c es => by
    simp only [Expr.relabel, Expr.nodes, nodesOfAll_relabel es, List.map_append, List.map_cons,
      List.map_nil]
  | .branch _ c x y => by
    simp only [Expr.relabel, Expr.nodes, Expr.nodes_relabel c, Expr.nodes_relabel x,
      Expr.nodes_relabel y, List.map_append, List.map_cons, List.map_nil]
  | .letIn _ _ ds x => by
    simp only [Expr.relabel, Expr.nodes, nodesOfDeclarations_relabel ds, Expr.nodes_relabel x,
      List.map_append, List.map_cons, List.map_nil]
  | .block _ es => by
    simp only [Expr.relabel, Expr.nodes, nodesOfAll_relabel es, List.map_append, List.map_cons,
      List.map_nil]

theorem nodesOfAll_relabel : ∀ es : List Expr,
    nodesOfAll (Expr.relabelAll r es) = (nodesOfAll es).map (Expr.relabel r)
  | [] => rfl
  | e :: more => by
    rw [Expr.relabelAll, nodesOfAll, nodesOfAll, Expr.nodes_relabel e, nodesOfAll_relabel more,
      List.map_append]

theorem nodesOfDeclarations_relabel : ∀ ds : List (String × Expr),
    nodesOfDeclarations (Expr.relabelDeclarations r ds) =
      (nodesOfDeclarations ds).map (Expr.relabel r)
  | [] => rfl
  | (_, e) :: more => by
    rw [Expr.relabelDeclarations, nodesOfDeclarations, nodesOfDeclarations, Expr.nodes_relabel e,
      nodesOfDeclarations_relabel more, List.map_append]

end

theorem Expr.relabelDeclarations_eq_map (ds : List (String × Expr)) :
    relabelDeclarations r ds = ds.map fun d => (d.1, d.2.relabel r) := by
  induction ds with
  | nil => rfl
  | cons d more ih => rw [relabelDeclarations, ih, List.map_cons]

theorem Expr.redeclares_relabel (e : Expr) : (e.relabel r).redeclares = e.redeclares := by
  cases e with
  | letIn i scope ds x =>
    simp only [relabel, redeclares, relabelDeclarations_eq_map, List.any_map, Function.comp_def,
      ty_relabel]
  | _ => rfl

namespace Module

theorem literals_relabel (m : Module) :
    (m.relabel r).literals = m.literals.map (Procedure.relabel r) := by
  simp only [literals, relabel, List.flatMap_map, Procedure.relabel, Expr.literals_relabel,
    List.map_append, List.map_flatMap]
  cases m.entryPoint? <;> simp [Procedure.relabel, Expr.literals_relabel]

/-- The same procedures and the same entry, up to what a check hands out and to the order. -/
structure Reordered (r : Relabel) (m m' : Module) : Prop where
  procedures : (m.relabel r).procedures.Perm m'.procedures
  entryPoint? : (m.relabel r).entryPoint? = m'.entryPoint?

namespace Reordered

variable {m m' : Module}

theorem literals (h : Reordered r m m') :
    (m.literals.map (Procedure.relabel r)).Perm m'.literals := by
  rw [← literals_relabel, Module.literals, Module.literals, h.entryPoint?]
  exact (h.procedures.flatMap_right _).append_right _

theorem users (h : Reordered r m m') :
    ((m.procedures.map (·.2)).map (Procedure.relabel r)).Perm (m'.procedures.map (·.2)) := by
  have hp := h.procedures.map (·.2)
  rw [relabel, List.map_map] at hp
  rw [List.map_map]
  exact hp

theorem entry (h : Reordered r m m') :
    m.entryPoint?.toList.map (Procedure.relabel r) = m'.entryPoint?.toList := by
  rw [← h.entryPoint?, relabel]
  cases m.entryPoint? <;> rfl

theorem hasHigherOrder_iff (h : Reordered r m m') : m'.HasHigherOrder ↔ m.HasHigherOrder := by
  have hp := h.users.append h.literals
  rw [← List.map_append] at hp
  simpa only [HasHigherOrder, List.mem_append] using
    exists_mem_iff_of_perm_map hp (q := fun P => P.isHigherOrder = true) fun _ => Iff.rfl

theorem redeclares_iff (P : Procedure Expr) :
    (∃ e ∈ (P.relabel r).body.nodes, e.redeclares = true) ↔
      ∃ e ∈ P.body.nodes, e.redeclares = true := by
  rw [Procedure.relabel, Expr.nodes_relabel]
  exact exists_mem_iff_of_perm_map (.refl _) fun e => by rw [Expr.redeclares_relabel]

theorem hasRedeclaration_iff (h : Reordered r m m') :
    m'.HasRedeclaration ↔ m.HasRedeclaration := by
  have hp := h.users.append (h.literals.append (.of_eq h.entry))
  rw [← List.map_append, ← List.map_append] at hp
  simpa only [HasRedeclaration, List.mem_append, Option.mem_toList, Option.mem_def] using
    exists_mem_iff_of_perm_map hp redeclares_iff

end Reordered

end Module

end Typed

namespace Module

/-- A checked module has code exactly if it has none of the two things that are refused. -/
theorem exists_lower_iff {m : Module} {tm : Typed.Module} (h : m.check = .ok tm) :
    (∃ c, tm.lower = .ok c) ↔ ¬ tm.HasHigherOrder ∧ ¬ tm.HasRedeclaration := by
  obtain ⟨G, hG, hm, hs⟩ := Lexical.signatures_of_check h
  constructor
  · rintro ⟨c, hc⟩
    have hi := Typed.Module.implements_of_lower hc hm.literals_constants
    exact ⟨hi.not_hasHigherOrder, hi.not_hasRedeclaration⟩
  · rintro ⟨hhigher, hredeclares⟩
    unfold Typed.Module.lower
    cases hrun : Lower.module tm .initial with
    | ok u b => exact ⟨_, rfl⟩
    | error d b =>
      rcases hm.failsOnlyIf hs (Lexical.declareAll_declared hG).settled _ _ _ hrun with h | h
      · exact absurd h.2 hhigher
      · exact absurd h.2 hredeclares

end Module

namespace Lexical

variable {w : Outside} {n n' : Nat}

theorem checkItem_isEntry {item : Item} {ti : Typed.Item}
    (h : checkItem w n item = some (ti, n')) :
    (Typed.entries [ti]).length = [item].countP Item.isEntry := by
  cases item with
  | procedure name literal span =>
    obtain ⟨_, -, h⟩ := Option.map_eq_some_iff.mp h
    cases h
    rfl
  | constant name type? value span =>
    obtain ⟨x, -, h⟩ := Option.bind_eq_some_iff.mp h
    obtain ⟨ty, -, h⟩ := Option.bind_eq_some_iff.mp h
    obtain ⟨-, h⟩ := Option.ite_none_right_eq_some.mp h
    cases h
    rfl
  | mutable name type? value span => cases h
  | entry body span =>
    obtain ⟨_, -, h⟩ := Option.map_eq_some_iff.mp h
    cases h
    rfl

theorem length_entries {items : List Item} {ts : List Typed.Item}
    (h : checkItems w n items = some (ts, n')) :
    (Typed.entries ts).length = items.countP Item.isEntry := by
  induction items generalizing n ts with
  | nil =>
    cases h
    rfl
  | cons item more ih =>
    obtain ⟨t, m, rest, ht, hrest, rfl⟩ := checkItems_cons_eq_some.mp h
    have hone := checkItem_isEntry ht
    have hmore := ih hrest
    rw [← List.singleton_append, ← List.singleton_append (l := more), Typed.entries,
      List.filterMap_append, List.length_append, List.countP_append]
    exact congrArg₂ _ hone hmore

end Lexical

namespace Module

theorem exists_check_of_perm {m m' : Module} (hp : m.items.Perm m'.items) {tm : Typed.Module}
    (h : m.check = .ok tm) :
    ∃ tm' ρ, m'.check = .ok tm' ∧ Function.Injective ρ ∧
      (tm.relabel (.renumber ρ)).procedures.Perm tm'.procedures ∧
      tm.constants.Perm tm'.constants ∧
      (m.items.countP Item.isEntry ≤ 1 →
        (tm.relabel (.renumber ρ)).entryPoint? = tm'.entryPoint?) := by
  obtain ⟨G, ts, n, hG, hts, rfl⟩ := Lexical.module_check_eq_ok.mp h
  obtain ⟨G', hG', hget⟩ := Lexical.declareAll_perm hp hG
  have hsettled := (Lexical.declareAll_declared hG).settled
  obtain ⟨ts', ρ, hts', hρ, -, hperm⟩ := Lexical.checkItems_perm (w := .ofGlobals G) hsettled hp hts
  have hcheck : Lexical.checkItems (.ofGlobals G') 1 m'.items = some (ts', n) := by
    rw [← hts']
    exact Lexical.checkItems_withGlobals (w := .ofGlobals G) hget 1 m'.items
  have hfits := Lexical.moduleFits_ofItems hG hts
  refine ⟨.ofItems ts', ρ, Lexical.module_check_eq_ok.mpr ⟨G', ts', n, hG', hcheck, rfl⟩, hρ,
    ?_, ?_, fun hone => ?_⟩
  · rw [Typed.Module.relabel_ofItems]
    exact hperm.filterMap _
  · have hsame : ((Typed.Module.ofItems ts).relabel (.renumber ρ)).constants =
        (Typed.Module.ofItems ts).constants := by
      refine (List.map_congr_left fun c hc => ?_).trans (List.map_id _)
      obtain ⟨-, e, he⟩ := hfits.constants c hc
      rw [Lexical.relabel_constantValue he ρ]
      rfl
    rw [← hsame, Typed.Module.relabel_ofItems]
    exact hperm.filterMap _
  · rw [hp.countP_eq, ← Lexical.length_entries hts'] at hone
    have hentries : (Typed.entries (ts.map (Typed.Item.relabel (.renumber ρ)))).Perm
        (Typed.entries ts') := hperm.filterMap _
    rw [Typed.Module.relabel_ofItems]
    exact congrArg List.getLast? (eq_of_perm_of_length_le_one hentries hone)

/-- Items in another order make a module that is accepted, and has code, exactly if the module is
and has. Procedures and entry are then the same up to the numbers of scopes, and constants are the
same. A module that was read has one entry at most. -/
theorem check_and_lower_of_perm {m m' : Module} (hp : m.items.Perm m'.items) :
    ((∃ tm, m.check = .ok tm) ↔ ∃ tm', m'.check = .ok tm') ∧
    ∀ tm tm', m.check = .ok tm → m'.check = .ok tm' →
      (∃ ρ : Nat → Nat, Function.Injective ρ ∧
        (tm.relabel (.renumber ρ)).procedures.Perm tm'.procedures ∧
        tm.constants.Perm tm'.constants ∧
        (m.items.countP Item.isEntry ≤ 1 →
          (tm.relabel (.renumber ρ)).entryPoint? = tm'.entryPoint?)) ∧
      (m.items.countP Item.isEntry ≤ 1 →
        ((∃ c, tm.lower = .ok c) ↔ ∃ c', tm'.lower = .ok c')) := by
  refine ⟨⟨?_, ?_⟩, fun tm tm' h h' => ?_⟩
  · rintro ⟨tm, h⟩
    obtain ⟨tm', -, h', -⟩ := exists_check_of_perm hp h
    exact ⟨tm', h'⟩
  · rintro ⟨tm', h'⟩
    obtain ⟨tm, -, h, -⟩ := exists_check_of_perm hp.symm h'
    exact ⟨tm, h⟩
  · obtain ⟨tm'', ρ, h'', hρ, hprocedures, hconstants, hentry⟩ := exists_check_of_perm hp h
    obtain rfl : tm' = tm'' := Except.ok.inj (h'.symm.trans h'')
    refine ⟨⟨ρ, hρ, hprocedures, hconstants, hentry⟩, fun hone => ?_⟩
    have hr : tm.Reordered (.renumber ρ) tm' := ⟨hprocedures, hentry hone⟩
    rw [exists_lower_iff h, exists_lower_iff h', hr.hasHigherOrder_iff, hr.hasRedeclaration_iff]

/-- `entry { println_i32(next(one)) } const one: i32 = 1
proc next(n: i32) -> i32 { let m = n { m } }`. -/
def upsideDown : Module :=
  let s : Span := .empty .nowhere
  let i32 : TypeExpr := .name "i32" .nowhere
  let next : Expr := .call (.name "next" s) [.name "one" s] s
  ⟨[.entry (.block [.call (.name "println_i32" s) [next] s] s) s,
    .constant "one" (some i32) (.number 1 s) s,
    .procedure "next" ⟨[⟨"n", some i32, s⟩], some i32,
      .block [.letIn [⟨"m", none, .name "n" s, s⟩] (.block [.name "m" s] s) s] s, s⟩ s], s⟩

theorem upsideDown_reversed : ∃ tm tm', upsideDown.check = .ok tm ∧
    (⟨upsideDown.items.reverse, upsideDown.span⟩ : Module).check = .ok tm' ∧
    tm.entryPoint?.map (·.scope) = some 1 ∧ tm'.entryPoint?.map (·.scope) = some 3 ∧
    (∃ ρ : Nat → Nat, Function.Injective ρ ∧
      (tm.relabel (.renumber ρ)).procedures.Perm tm'.procedures ∧
      tm.constants.Perm tm'.constants ∧
      (tm.relabel (.renumber ρ)).entryPoint? = tm'.entryPoint?) ∧
    ((∃ c, tm.lower = .ok c) ↔ ∃ c', tm'.lower = .ok c') := by
  have hone : upsideDown.items.countP Item.isEntry ≤ 1 := by decide
  have h : upsideDown.check.toOption.map (fun tm => tm.entryPoint?.map (·.scope)) =
      some (some 1) := by decide +kernel
  have h' : (⟨upsideDown.items.reverse, upsideDown.span⟩ : Module).check.toOption.map
      (fun tm => tm.entryPoint?.map (·.scope)) = some (some 3) := by decide +kernel
  obtain ⟨tm, hc, hs⟩ := Option.map_eq_some_iff.mp h
  obtain ⟨tm', hc', hs'⟩ := Option.map_eq_some_iff.mp h'
  rw [toOption_eq_some] at hc hc'
  have hp : upsideDown.items.Perm upsideDown.items.reverse := (List.reverse_perm _).symm
  obtain ⟨⟨ρ, hρ, hprocedures, hconstants, hentry⟩, hlower⟩ :=
    (check_and_lower_of_perm hp).2 tm tm' hc hc'
  exact ⟨tm, tm', hc, hc', hs, hs', ⟨ρ, hρ, hprocedures, hconstants, hentry hone⟩, hlower hone⟩

end Module

end RootedC
