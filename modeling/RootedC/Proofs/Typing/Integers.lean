import RootedC.Proofs.Lowering.Checked

/-!
The numbers of a program. Those that stand in a typed program stand in the program it comes from.
-/
namespace RootedC

namespace Expr

mutual

/-- The numbers that are written in an expression. -/
def numbers : Expr → List Int
  | .number value _ => [value]
  | .text _ _ => []
  | .boolean _ _ => []
  | .unit _ => []
  | .name _ _ => []
  | .unary _ operand _ => numbers operand
  | .binary left _ right _ => numbers left ++ numbers right
  | .call callee arguments _ => numbers callee ++ numbersAll arguments
  | .branch condition thenArm elseArm? _ =>
    numbers condition ++ numbers thenArm ++
      match elseArm? with
      | some elseArm => numbers elseArm
      | none => []
  | .letIn declarations body _ => numbersDeclared declarations ++ numbers body
  | .procedure ⟨_, _, body, _⟩ => numbers body
  | .block body _ => numbersAll body

def numbersAll : List Expr → List Int
  | [] => []
  | e :: more => numbers e ++ numbersAll more

def numbersDeclared : List (Declaration Expr) → List Int
  | [] => []
  | ⟨_, _, value, _⟩ :: more => numbers value ++ numbersDeclared more

end

end Expr

def Item.numbers : Item → List Int
  | procedure _ literal _ => literal.body.numbers
  | constant _ _ value _ => value.numbers
  | mutable _ _ value _ => value.numbers
  | entry body _ => body.numbers

def Module.numbers (m : Module) : List Int := m.items.flatMap Item.numbers

namespace Typed

mutual

/-- The numbers in a typed expression, those in inner procedures included. -/
def Expr.integers : Expr → List Int
  | .integer _ value => [value]
  | .boolean _ _ => []
  | .text _ _ _ => []
  | .unit _ => []
  | .name _ _ _ _ => []
  | .unary _ _ x => x.integers
  | .binary _ _ x y => x.integers ++ y.integers
  | .call _ c es => integersOfCallee c ++ integersOfAll es
  | .branch _ c x y => c.integers ++ x.integers ++ y.integers
  | .letIn _ _ ds x => integersOfDeclarations ds ++ x.integers
  | .block _ es => integersOfAll es

def integersOfAll : List Expr → List Int
  | [] => []
  | e :: more => e.integers ++ integersOfAll more

def integersOfDeclarations : List (String × Expr) → List Int
  | [] => []
  | (_, e) :: more => e.integers ++ integersOfDeclarations more

def integersOfCallee : Callee Expr → List Int
  | .builtin _ => []
  | .global _ => []
  | .literal ⟨_, _, _, body, _, _⟩ => body.integers

end

def Item.integers : Item → List Int
  | .procedure _ P => P.body.integers
  | .constant c => c.value.integers
  | .entry P => P.body.integers

mutual

theorem integers_of_mem_literals {P : Procedure Expr} : ∀ {e : Expr}, P ∈ e.literals →
    P.body.integers ⊆ e.integers
  | .integer _ _, h | .boolean _ _, h | .text _ _ _, h | .unit _, h | .name _ _ _ _, h => by
    cases h
  | .unary _ _ x, h => by
    rw [Expr.literals] at h
    rw [Expr.integers]
    exact integers_of_mem_literals h
  | .binary _ _ x y, h => by
    rw [Expr.literals] at h
    rw [Expr.integers]
    rcases List.mem_append.mp h with h | h
    · exact List.subset_append_of_subset_left _ (integers_of_mem_literals h)
    · exact List.subset_append_of_subset_right _ (integers_of_mem_literals h)
  | .call _ c es, h => by
    rw [Expr.literals] at h
    rw [Expr.integers]
    rcases List.mem_append.mp h with h | h
    · exact List.subset_append_of_subset_right _ (integers_of_mem_literalsOfAll h)
    · exact List.subset_append_of_subset_left _ (integers_of_mem_literalsOfCallee h)
  | .branch _ c x y, h => by
    rw [Expr.literals] at h
    rw [Expr.integers]
    rcases List.mem_append.mp h with h | h
    · rcases List.mem_append.mp h with h | h
      · exact List.subset_append_of_subset_left _
          (List.subset_append_of_subset_left _ (integers_of_mem_literals h))
      · exact List.subset_append_of_subset_left _
          (List.subset_append_of_subset_right _ (integers_of_mem_literals h))
    · exact List.subset_append_of_subset_right _ (integers_of_mem_literals h)
  | .letIn _ _ ds x, h => by
    rw [Expr.literals] at h
    rw [Expr.integers]
    rcases List.mem_append.mp h with h | h
    · exact List.subset_append_of_subset_left _ (integers_of_mem_literalsOfDeclarations h)
    · exact List.subset_append_of_subset_right _ (integers_of_mem_literals h)
  | .block _ es, h => by
    rw [Expr.literals] at h
    rw [Expr.integers]
    exact integers_of_mem_literalsOfAll h

theorem integers_of_mem_literalsOfAll {P : Procedure Expr} : ∀ {es : List Expr},
    P ∈ literalsOfAll es → P.body.integers ⊆ integersOfAll es
  | [], h => by cases h
  | e :: more, h => by
    rw [literalsOfAll] at h
    rw [integersOfAll]
    rcases List.mem_append.mp h with h | h
    · exact List.subset_append_of_subset_left _ (integers_of_mem_literals h)
    · exact List.subset_append_of_subset_right _ (integers_of_mem_literalsOfAll h)

theorem integers_of_mem_literalsOfDeclarations {P : Procedure Expr} :
    ∀ {ds : List (String × Expr)}, P ∈ literalsOfDeclarations ds →
      P.body.integers ⊆ integersOfDeclarations ds
  | [], h => by cases h
  | (_, e) :: more, h => by
    rw [literalsOfDeclarations] at h
    rw [integersOfDeclarations]
    rcases List.mem_append.mp h with h | h
    · exact List.subset_append_of_subset_left _ (integers_of_mem_literals h)
    · exact List.subset_append_of_subset_right _ (integers_of_mem_literalsOfDeclarations h)

theorem integers_of_mem_literalsOfCallee {P : Procedure Expr} : ∀ {c : Callee Expr},
    P ∈ literalsOfCallee c → P.body.integers ⊆ integersOfCallee c
  | .builtin _, h | .global _, h => by cases h
  | .literal ⟨scope, parameters, result, body, size, span⟩, h => by
    rw [literalsOfCallee] at h
    rw [integersOfCallee]
    rcases List.mem_append.mp h with h | h
    · exact integers_of_mem_literals h
    · cases List.mem_singleton.mp h
      exact List.Subset.refl _

end

end Typed

namespace Lexical

open Typed

theorem append_subset_append {as bs cs ds : List Int} (h : as ⊆ cs) (h' : bs ⊆ ds) :
    as ++ bs ⊆ cs ++ ds :=
  List.append_subset.mpr
    ⟨List.subset_append_of_subset_left _ h, List.subset_append_of_subset_right _ h'⟩

theorem integers_fillHole {ty : Ty} {x y : Typed.Expr} {a a' : Activation}
    (h : Pass.fillHole ty x a = some (y, a')) : y.integers = x.integers := by
  rcases fillHole_eq_some.mp h with ⟨_, _, _, _, _, rfl, rfl, -⟩ | ⟨-, rfl, -⟩ <;> rfl

theorem exists_check_body {w : Outside} {n n' : Nat} {parameters : List Parameter}
    {result? : Option TypeExpr} {body : Expr} {span : Span} {P : Typed.Procedure Typed.Expr}
    (h : checkProcedure w n ⟨parameters, result?, body, span⟩ = some (P, n')) :
    ∃ a a', check w body a = some (P.body, a') := by
  obtain ⟨-, written, scope, tys, e, a, -, -, he, hc⟩ := checkProcedure_eq_some.mp h
  obtain ⟨-, -, rfl, -⟩ := closeProcedure_eq_some.mp hc
  exact ⟨_, a, he⟩

mutual

theorem check_integers : ∀ {e : Expr} {w : Outside} {a a' : Activation} {te : Typed.Expr},
    check w e a = some (te, a') → te.integers ⊆ e.numbers
  | .number _ _, w, a, a', te, h => by
    obtain ⟨rfl, -⟩ := check_number_eq_some.mp h
    exact List.Subset.refl _
  | .text _ _, w, a, a', te, h => by
    obtain ⟨rfl, -⟩ := check_text_eq_some.mp h
    exact List.nil_subset _
  | .boolean _ _, w, a, a', te, h => by
    obtain ⟨rfl, -⟩ := check_boolean_eq_some.mp h
    exact List.nil_subset _
  | .unit _, w, a, a', te, h => by
    obtain ⟨rfl, -⟩ := check_unit_eq_some.mp h
    exact List.nil_subset _
  | .name _ _, w, a, a', te, h => by
    rw [check] at h
    obtain ⟨-, ⟨r, -, -, rfl⟩ | ⟨-, -, ty, -, -, rfl⟩⟩ := checkName_eq_some.mp h
    · exact List.nil_subset _
    · exact List.nil_subset _
  | .unary _ operand _, w, a, a', te, h => by
    obtain ⟨op, x, a₁, y, -, hx, hfill, -, rfl⟩ := check_unary_eq_some.mp h
    rw [Typed.Expr.integers, integers_fillHole hfill, Expr.numbers]
    exact check_integers hx
  | .binary left _ right _, w, a, a', te, h => by
    obtain ⟨op, l, r, a₁, -, hl, hr, -, -, rfl⟩ := check_binary_eq_some.mp h
    rw [Typed.Expr.integers, Expr.numbers]
    exact append_subset_append (check_integers hl) (check_integers hr)
  | .call callee arguments _, w, a, a', te, h => by
    obtain ⟨c, ps, r, a₁, es, a₂, root?, hc, -, hes, -, rfl⟩ := check_call_eq_some.mp h
    rw [Typed.Expr.integers, Expr.numbers]
    refine append_subset_append ?_ (checkArguments_integers hes)
    cases callee with
    | procedure literal =>
      rcases checkCallee_eq_some.mp hc with ⟨l, P, hl, rfl, -, hp, -⟩ | ⟨_, _, hl, -⟩
      · cases hl
        exact checkProcedure_integers hp
      · cases hl
    | _ =>
      rcases checkCallee_eq_some.mp hc with ⟨_, _, hl, -⟩ | ⟨name, s, -, hn⟩
      · cases hl
      · obtain ⟨-, -, -, ⟨-, -, rfl⟩ | ⟨-, b, -, -, rfl⟩⟩ := checkCalleeName_eq_some.mp hn
        · exact List.nil_subset _
        · exact List.nil_subset _
  | .branch condition thenArm elseArm? _, w, a, a', te, h => by
    obtain ⟨c, t, f, a₁, a₂, hc, -, ht, helse, -, rfl⟩ := check_branch_eq_some.mp h
    have hct := append_subset_append (check_integers hc) (check_integers ht)
    cases elseArm? with
    | some elseArm =>
      rw [Typed.Expr.integers, Expr.numbers]
      exact append_subset_append hct (check_integers helse)
    | none =>
      obtain ⟨rfl, -⟩ := check_unit_eq_some.mp helse
      rw [Typed.Expr.integers, Expr.numbers]
      exact append_subset_append hct (List.nil_subset _)
  | .letIn declarations body _, w, a, a', te, h => by
    obtain ⟨ds, a₁, x, a₂, a₃, root?, hds, hx, -, -, rfl⟩ := check_let_eq_some.mp h
    rw [Typed.Expr.integers, Expr.numbers]
    exact append_subset_append (checkDeclarations_integers hds) (check_integers hx)
  | .procedure literal, w, a, a', te, h => absurd h check_procedure_ne_some
  | .block body _, w, a, a', te, h => by
    obtain ⟨es, hes, rfl⟩ := check_block_eq_some.mp h
    rw [Typed.Expr.integers, Expr.numbers]
    exact checkAll_integers hes

theorem checkAll_integers : ∀ {es : List Expr} {w : Outside} {a a' : Activation}
    {tes : List Typed.Expr}, checkAll w es a = some (tes, a') →
      integersOfAll tes ⊆ Expr.numbersAll es
  | [], w, a, a', tes, h => by
    obtain ⟨rfl, -⟩ := checkAll_nil_eq_some.mp h
    exact List.Subset.refl _
  | e :: more, w, a, a', tes, h => by
    obtain ⟨te, a₁, rest, he, hm, rfl⟩ := checkAll_cons_eq_some.mp h
    rw [integersOfAll, Expr.numbersAll]
    exact append_subset_append (check_integers he) (checkAll_integers hm)

theorem checkArguments_integers : ∀ {es : List Expr} {w : Outside} {tys : List Ty}
    {a a' : Activation} {tes : List Typed.Expr}, checkArguments w es tys a = some (tes, a') →
      integersOfAll tes ⊆ Expr.numbersAll es
  | [], w, tys, a, a', tes, h => by
    obtain ⟨rfl, -⟩ := checkArguments_nil_eq_some.mp h
    exact List.Subset.refl _
  | e :: more, w, [], a, a', tes, h => by
    cases h
    exact List.nil_subset _
  | e :: more, w, ty :: tys, a, a', tes, h => by
    obtain ⟨te, a₁, rest, he, -, hm, rfl⟩ := checkArguments_cons_eq_some.mp h
    rw [integersOfAll, Expr.numbersAll]
    exact append_subset_append (check_integers he) (checkArguments_integers hm)

theorem checkDeclarations_integers : ∀ {ds : List (Declaration Expr)} {w : Outside}
    {a a' : Activation} {tds : List (String × Typed.Expr)} {scope : Nat},
    checkDeclarations w scope ds a = some (tds, a') →
      integersOfDeclarations tds ⊆ Expr.numbersDeclared ds
  | [], w, a, a', tds, scope, h => by
    obtain ⟨rfl, -⟩ := checkDeclarations_nil_eq_some.mp h
    exact List.Subset.refl _
  | ⟨name, type?, value, span⟩ :: more, w, a, a', tds, scope, h => by
    obtain ⟨x, a₁, rest, hx, -, hm, rfl⟩ := checkDeclarations_cons_eq_some.mp h
    rw [integersOfDeclarations, Expr.numbersDeclared]
    exact append_subset_append (check_integers hx) (checkDeclarations_integers hm)

theorem checkProcedure_integers : ∀ {literal : Procedure Expr} {w : Outside} {n n' : Nat}
    {P : Typed.Procedure Typed.Expr}, checkProcedure w n literal = some (P, n') →
      P.body.integers ⊆ literal.body.numbers
  | ⟨parameters, result?, body, span⟩, w, n, n', P, h => by
    obtain ⟨a, a', hbody⟩ := exists_check_body h
    exact check_integers hbody

end

theorem integers_of_constantValue {e : Expr} {x : Typed.Expr} (h : constantValue? e = some x) :
    x.integers ⊆ e.numbers := by
  unfold constantValue? at h
  split at h
  · cases h
    exact List.Subset.refl _
  · cases h
    exact List.nil_subset _
  · cases h
    exact List.nil_subset _
  · split at h
    · cases h
      exact List.Subset.refl _
    · cases h
  · cases h

theorem checkItem_integers {w : Outside} {n n' : Nat} {item : Item} {ti : Typed.Item}
    (h : checkItem w n item = some (ti, n')) : ti.integers ⊆ item.numbers := by
  cases item with
  | procedure name literal span =>
    obtain ⟨⟨P, m⟩, hP, hrest⟩ := Option.map_eq_some_iff.mp h
    cases hrest
    exact checkProcedure_integers hP
  | constant name type? value span =>
    obtain ⟨x, hx, h⟩ := Option.bind_eq_some_iff.mp h
    obtain ⟨ty, -, h⟩ := Option.bind_eq_some_iff.mp h
    obtain ⟨-, h⟩ := Option.ite_none_right_eq_some.mp h
    cases h
    exact integers_of_constantValue hx
  | mutable name type? value span => cases h
  | entry body span =>
    obtain ⟨⟨te, a⟩, he, hrest⟩ := Option.map_eq_some_iff.mp h
    cases hrest
    exact check_integers he

theorem checkItems_integers {w : Outside} {n n' : Nat} {items : List Item}
    {tis : List Typed.Item} (h : checkItems w n items = some (tis, n')) :
    ∀ ti ∈ tis, ti.integers ⊆ items.flatMap Item.numbers := by
  induction items generalizing n tis with
  | nil =>
    cases h
    simp
  | cons item more ih =>
    obtain ⟨⟨ti, m⟩, hti, h⟩ := Option.bind_eq_some_iff.mp h
    obtain ⟨⟨rest, k⟩, hrest, h⟩ := Option.map_eq_some_iff.mp h
    cases h
    rw [List.flatMap_cons]
    refine List.forall_mem_cons.mpr ⟨?_, fun t ht => ?_⟩
    · exact List.subset_append_of_subset_left _ (checkItem_integers hti)
    · exact List.subset_append_of_subset_right _ (ih hrest t ht)

end Lexical

open Lexical

/-- All numbers of a checked module stand in the module it comes from. -/
theorem Module.integers_of_check {source : Module} {tm : Typed.Module} (h : source.check = .ok tm) :
    (∀ u ∈ tm.units, u.2.body.integers ⊆ source.numbers) ∧
      (∀ P ∈ tm.entryPoint?, P.body.integers ⊆ source.numbers) ∧
      ∀ c ∈ tm.constants, c.value.integers ⊆ source.numbers := by
  obtain ⟨G, items, n, -, hitems, rfl⟩ := module_check_eq_ok.mp h
  have hall := checkItems_integers hitems
  have hprocedures : ∀ p ∈ (Typed.Module.ofItems items).procedures,
      p.2.body.integers ⊆ source.numbers := fun p hp =>
    hall _ (Typed.Module.mem_procedures_ofItems hp)
  have hentry : ∀ P ∈ (Typed.Module.ofItems items).entryPoint?,
      P.body.integers ⊆ source.numbers := fun P hP =>
    hall _ (Typed.mem_entries ((Typed.Module.entryPoint?_ofItems items).subset
      (Option.mem_toList.mpr hP)))
  refine ⟨fun u hu => ?_, hentry, fun c hc => hall _ (Typed.Module.mem_constants_ofItems hc)⟩
  rcases List.mem_append.mp ((Typed.Module.units_perm _).mem_iff.mp hu) with hu | hu
  · obtain ⟨P, hP, rfl⟩ := List.mem_map.mp hu
    rcases List.mem_append.mp hP with hP | hP
    · obtain ⟨p, hp, hP⟩ := List.mem_flatMap.mp hP
      exact List.Subset.trans (Typed.integers_of_mem_literals hP) (hprocedures p hp)
    · obtain ⟨E, hE, hP⟩ := List.mem_flatMap.mp hP
      exact List.Subset.trans (Typed.integers_of_mem_literals hP)
        (hentry E (Option.mem_toList.mp hE))
  · obtain ⟨p, hp, rfl⟩ := List.mem_map.mp hu
    exact hprocedures p hp

end RootedC
