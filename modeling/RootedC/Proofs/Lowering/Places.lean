import RootedC.Code.Lowering
import RootedC.Proofs.Typing.Places

/-!
Lowering does not look at places, and code has none. A typed module without places has the same
code, or is refused for the same reason.
-/
namespace RootedC

namespace Lower

variable {α : Type}

theorem fail_bare {β : Type} {g : α → β} (cause : Cause) (position : Position) :
    BareRun g (fail cause position : Lower α) (fail cause .nowhere : Lower β) := fun _ => rfl

theorem temporary_bare : BareRun id temporary temporary := .of_ok fun _ => ⟨_, _, rfl⟩

theorem intern_bare (raw : String) (length : Nat) :
    BareRun id (intern raw length) (intern raw length) :=
  .of_ok fun _ => ⟨_, _, rfl⟩

theorem cType_bare (ty : Ty) (position : Position) :
    BareRun id (cType ty position) (cType ty .nowhere) := by
  unfold cType
  split
  · exact .pure rfl
  · exact fail_bare _ _

theorem addPrototype_bare (p : Code.Prototype) : BareRun id (addPrototype p) (addPrototype p) :=
  .of_ok fun _ => ⟨_, _, rfl⟩

theorem addProcedure_bare (p : Code.Procedure) : BareRun id (addProcedure p) (addProcedure p) :=
  .of_ok fun _ => ⟨_, _, rfl⟩

theorem inProcedure_bare {run run' : Lower α} (scope : Nat) (h : BareRun id run run') :
    BareRun id (inProcedure scope run) (inProcedure scope run') := by
  intro b
  unfold inProcedure
  rw [h]
  cases run { b with procedure := scope } <;> rfl

theorem parameters_bare (scope : Nat) (position : Position) (ps : List (String × Ty)) :
    BareRun id (parameters scope position ps) (parameters scope .nowhere ps) := by
  induction ps with
  | nil => exact .pure rfl
  | cons p more ih => exact (cType_bare _ _).bind fun c => ih.bind fun qs => .pure rfl

theorem prototype_bare (name : Code.Name) (p : Typed.Procedure Typed.Expr) :
    BareRun id (prototype name p) (prototype name p.bare) :=
  (parameters_bare _ _ _).bind fun _ => (cType_bare _ _).bind fun _ => .pure rfl

theorem declaration_bare (seen : List (String × String)) (scope : Nat) (name c : String)
    (value : Code.Operand) (position : Position) :
    BareRun id (declaration seen scope name c value position)
      (declaration seen scope name c value .nowhere) := by
  unfold declaration
  split
  · exact .pure rfl
  · split
    · exact .pure rfl
    · exact fail_bare _ _

theorem clearRoots_bare (ds : List (String × Typed.Expr)) :
    clearRoots (Typed.Expr.bareDeclarations ds) = clearRoots ds := by
  induction ds with
  | nil => rfl
  | cons d more ih =>
    obtain ⟨z, e⟩ := d
    have hroot : e.bare.root? = e.root? := by
      rw [Typed.Expr.root?, e.info_bare]
      rfl
    rw [Typed.Expr.bareDeclarations, clearRoots, List.filterMap_cons, clearRoots,
      List.filterMap_cons, hroot]
    unfold clearRoots at ih
    rw [ih]

end Lower

open Lower

namespace Typed.Expr

mutual

theorem lower_bare : ∀ e : Expr, BareRun id e.lower e.bare.lower
  | .integer i value => by
    rw [bare, lower, lower]
    exact .pure rfl
  | .boolean i value => by
    rw [bare, lower, lower]
    exact .pure rfl
  | .text i raw length => by
    rw [bare, lower, lower]
    exact (intern_bare raw length).bind fun _ => .pure rfl
  | .unit i => by
    rw [bare, lower, lower]
    exact .pure rfl
  | .name i z level origin => by
    rw [bare, lower, lower]
    exact .pure rfl
  | .unary i op x => by
    rw [bare, lower, lower]
    refine (lower_bare x).bind fun y => ?_
    cases op <;> exact .pure rfl
  | .binary i op x y => by
    rw [bare, lower, lower]
    refine (lower_bare x).bind fun l => (lower_bare y).bind fun r => ?_
    simp only [id_eq]
    split
    · exact temporary_bare.bind fun t => (cType_bare _ _).bind fun c => .pure rfl
    · exact .pure rfl
  | .call i c es => by
    rw [bare, lower, lower]
    exact (lowerArguments_bare es).bind fun a => (lowerCallee_bare c).bind fun call =>
      temporary_bare.bind fun t => (cType_bare _ _).bind fun c => .pure rfl
  | .branch i c x y => by
    rw [bare, lower, lower]
    exact (lower_bare c).bind fun a => temporary_bare.bind fun t => (cType_bare _ _).bind fun ct =>
      (lower_bare x).bind fun b => (lower_bare y).bind fun e => .pure rfl
  | .letIn i scope ds x => by
    obtain ⟨ty, root?, span⟩ := i
    rw [bare, lower, lower, clearRoots_bare]
    refine (lowerDeclarations_bare scope [] ds).bind fun code => (lower_bare x).bind fun y => ?_
    cases root? with
    | none => exact .pure rfl
    | some slot => exact temporary_bare.bind fun t => (cType_bare _ _).bind fun c => .pure rfl
  | .block i es => by
    rw [bare, lower, lower]
    exact lowerBody_bare es

theorem lowerBody_bare : ∀ es : List Expr,
    BareRun id (lowerBody es) (lowerBody (bareAll es))
  | [] => by
    rw [bareAll]
    exact .pure rfl
  | [e] => by
    rw [bareAll, bareAll, lowerBody, lowerBody]
    exact lower_bare e
  | e :: next :: more => by
    have hmore := lowerBody_bare (next :: more)
    have he := lower_bare e
    rw [bareAll] at hmore
    rw [bareAll, bareAll]
    -- a call whose value is not read is lowered by its parts
    cases e with
    | call i c es =>
      rw [bare, lowerBody, lowerBody]
      refine (lowerArguments_bare es).bind fun a => (lowerCallee_bare c).bind fun call => ?_
      exact (BareRun.pure (g := id) rfl).bind fun code => hmore.bind fun y => .pure rfl
    | _ =>
      simp only [bare, lowerBody] at he ⊢
      refine he.bind fun x => ?_
      exact (BareRun.pure (g := id) rfl).bind fun code => hmore.bind fun y => .pure rfl

theorem lowerArguments_bare : ∀ es : List Expr,
    BareRun id (lowerArguments es) (lowerArguments (bareAll es))
  | [] => by
    rw [bareAll]
    exact .pure rfl
  | e :: more => by
    rw [bareAll, lowerArguments, lowerArguments]
    exact (lower_bare e).bind fun x => (lowerArguments_bare more).bind fun a => .pure rfl

theorem lowerCallee_bare : ∀ c : Callee Expr,
    BareRun id (lowerCallee c) (lowerCallee (bareCallee c))
  | .builtin z => by
    rw [bareCallee, lowerCallee]
    exact .pure rfl
  | .global z => by
    rw [bareCallee, lowerCallee]
    exact .pure rfl
  | .literal ⟨scope, parameters, result, body, size, span⟩ => by
    rw [bareCallee, lowerCallee, lowerCallee]
    exact (prototype_bare _ _).bind fun p => (addPrototype_bare p).bind fun _ =>
      (inProcedure_bare scope (lower_bare body)).bind fun x =>
      (addProcedure_bare _).bind fun _ => .pure rfl

theorem lowerDeclarations_bare (scope : Nat) : ∀ (seen : List (String × String))
    (ds : List (String × Expr)), BareRun id (lowerDeclarations scope seen ds)
      (lowerDeclarations scope seen (bareDeclarations ds))
  | _, [] => by
    rw [bareDeclarations]
    simp only [lowerDeclarations]
    exact .pure rfl
  | seen, (z, value) :: more => by
    rw [bareDeclarations, lowerDeclarations, lowerDeclarations, value.ty_bare,
      value.span_bare]
    exact (lower_bare value).bind fun x => (cType_bare _ _).bind fun c =>
      (declaration_bare _ _ _ _ _ _).bind fun i =>
      (lowerDeclarations_bare scope _ more).bind fun code => .pure rfl

end

end Typed.Expr

namespace Lower

theorem procedure_bare (p : Code.Prototype) (literal : Typed.Procedure Typed.Expr) :
    BareRun id (procedure p literal) (procedure p literal.bare) :=
  (inProcedure_bare _ literal.body.lower_bare).bind fun _ => addProcedure_bare _

theorem entry_bare (literal : Typed.Procedure Typed.Expr) :
    BareRun id (entry literal) (entry literal.bare) :=
  (inProcedure_bare _ literal.body.lower_bare).bind fun _ => .of_ok fun _ => ⟨_, _, rfl⟩

theorem constant_bare (c : Typed.Constant) : BareRun id (constant c) (constant c.bare) := by
  unfold constant
  refine c.value.lower_bare.bind fun x => ?_
  simp only [Typed.Constant.bare, Typed.Expr.span_bare]
  exact (cType_bare _ _).bind fun _ => .of_ok fun _ => ⟨_, _, rfl⟩

theorem prototypes_bare (ps : List (String × Typed.Procedure Typed.Expr)) :
    BareRun id (prototypes ps) (prototypes (ps.map fun p => (p.1, p.2.bare))) := by
  induction ps with
  | nil => exact .pure rfl
  | cons p more ih =>
    exact (prototype_bare _ p.2).bind fun q => (addPrototype_bare q).bind fun _ =>
      ih.bind fun qs => .pure rfl

theorem constants_bare (cs : List Typed.Constant) :
    BareRun id (constants cs) (constants (cs.map Typed.Constant.bare)) := by
  induction cs with
  | nil => exact .pure rfl
  | cons c more ih => exact (constant_bare c).bind fun _ => ih

theorem procedures_bare (qs : List Code.Prototype) (ps : List (Typed.Procedure Typed.Expr)) :
    BareRun id (procedures (qs.zip ps)) (procedures (qs.zip (ps.map Typed.Procedure.bare))) := by
  induction ps generalizing qs with
  | nil => cases qs <;> exact .pure rfl
  | cons p more ih =>
    cases qs with
    | nil => exact .pure rfl
    | cons q qs => exact (procedure_bare q p).bind fun _ => ih qs

theorem module_bare (m : Typed.Module) : BareRun id (module m) (module m.bare) := by
  refine (prototypes_bare m.procedures).bind fun qs => (constants_bare m.constants).bind fun _ => ?_
  have hbodies : m.bare.procedures.map (·.2) =
      (m.procedures.map (·.2)).map Typed.Procedure.bare := by
    rw [Typed.Module.bare, List.map_map, List.map_map]
    rfl
  rw [hbodies]
  refine (procedures_bare qs _).bind fun _ => ?_
  obtain ⟨procedures, constants, entryPoint?⟩ := m
  cases entryPoint? with
  | none => exact .pure rfl
  | some literal => exact entry_bare literal

end Lower

/-- Lowering a module without places gives the same code, or refuses it for the same reason. -/
theorem Typed.Module.lower_bare (m : Typed.Module) : m.bare.lower = bareResult id m.lower := by
  unfold lower
  rw [Lower.module_bare]
  cases Lower.module m .initial <;> rfl

end RootedC
