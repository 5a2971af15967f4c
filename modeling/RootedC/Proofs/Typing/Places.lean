import RootedC.Proofs.Reading.Places
import RootedC.Proofs.Typing.Closed

/-!
Typing does not look at places. A module without places is accepted if and only if it is with them,
as the same typed module without places, and what is wrong with it is the same.
-/
namespace RootedC

namespace Typed

def Info.bare (i : Info) : Info := { i with span := .empty .nowhere }

namespace Expr

mutual

/-- A typed expression without places. -/
def bare : Expr → Expr
  | integer i value => integer i.bare value
  | boolean i value => boolean i.bare value
  | text i raw length => text i.bare raw length
  | unit i => unit i.bare
  | name i z level origin => name i.bare z level origin
  | unary i op x => unary i.bare op x.bare
  | binary i op x y => binary i.bare op x.bare y.bare
  | call i c es => call i.bare (bareCallee c) (bareAll es)
  | branch i c x y => branch i.bare c.bare x.bare y.bare
  | letIn i scope ds x => letIn i.bare scope (bareDeclarations ds) x.bare
  | block i es => block i.bare (bareAll es)

def bareAll : List Expr → List Expr
  | [] => []
  | e :: more => e.bare :: bareAll more

def bareDeclarations : List (String × Expr) → List (String × Expr)
  | [] => []
  | (z, e) :: more => (z, e.bare) :: bareDeclarations more

def bareCallee : Callee Expr → Callee Expr
  | .builtin z => .builtin z
  | .global z => .global z
  | .literal ⟨scope, parameters, result, body, size, _⟩ =>
    .literal ⟨scope, parameters, result, body.bare, size, .empty .nowhere⟩

end

theorem info_bare (e : Expr) : e.bare.info = e.info.bare := by
  cases e <;> rfl

@[simp] theorem ty_bare (e : Expr) : e.bare.ty = e.ty := by
  rw [ty, info_bare]
  rfl

@[simp] theorem span_bare (e : Expr) : e.bare.span = .empty .nowhere := by
  rw [span, info_bare]
  rfl

theorem bareAll_eq_map (es : List Expr) : bareAll es = es.map bare := by
  induction es with
  | nil => rfl
  | cons e more ih => rw [bareAll, ih, List.map_cons]

/-- The type of a block stays. -/
theorem last_ty_bareAll (es : List Expr) :
    ((bareAll es).getLast?.map (·.ty)).getD .unit = (es.getLast?.map (·.ty)).getD .unit := by
  rw [bareAll_eq_map, List.getLast?_map, Option.map_map]
  congr 2
  exact funext ty_bare

end Expr

def Procedure.bare (p : Procedure Expr) : Procedure Expr :=
  ⟨p.scope, p.parameters, p.result, p.body.bare, p.rootCount, .empty .nowhere⟩

theorem Expr.bareCallee_literal (p : Procedure Expr) :
    bareCallee (.literal p) = .literal p.bare := by
  rw [bareCallee]
  rfl

def Constant.bare (c : Constant) : Constant := { c with value := c.value.bare }

def Item.bare : Item → Item
  | procedure name literal => procedure name literal.bare
  | constant c => constant c.bare
  | entry literal => entry literal.bare

/-- A typed module without places. -/
def Module.bare (m : Module) : Module where
  procedures := m.procedures.map fun p => (p.1, p.2.bare)
  constants := m.constants.map Constant.bare
  entryPoint? := m.entryPoint?.map Procedure.bare

theorem Module.bare_ofItems (items : List Item) :
    ofItems (items.map Item.bare) = (ofItems items).bare := by
  simp only [bare, ofItems, Module.mk.injEq, List.filterMap_map, List.map_filterMap,
    ← List.getLast?_map]
  refine ⟨?_, ?_, ?_⟩
  · congr 1
    funext item
    cases item <;> rfl
  · congr 1
    funext item
    cases item <;> rfl
  · congr 2
    funext item
    cases item <;> rfl

end Typed

mutual

theorem TypeExpr.toTy_bare : ∀ a : TypeExpr, a.bare.toTy = bareResult id a.toTy
  | .name z p => by
    rw [bare, toTy, toTy]
    cases Ty.ofName? z <;> rfl
  | .array a p => by
    rw [bare, toTy, toTy]
    rfl
  | .proc ps r p => by
    rw [bare, toTy, toTy, toTys_bareAll ps, toTy_bare r]
    cases toTys ps with
    | error d => rfl
    | ok tys => cases r.toTy <;> rfl

theorem TypeExpr.toTys_bareAll : ∀ as : List TypeExpr, toTys (bareAll as) = bareResult id (toTys as)
  | [] => rfl
  | a :: more => by
    rw [bareAll, toTys, toTys, toTy_bare a, toTys_bareAll more]
    cases a.toTy with
    | error d => rfl
    | ok ty => cases toTys more <;> rfl

end

namespace Check

variable {α β : Type}

theorem fail_bare {g : α → β} (cause : Cause) (position : Position) :
    BareRun g (fail cause position : Check α) (fail cause .nowhere : Check β) := fun _ => rfl

theorem lift_bare (x : Except Diagnostic α) : BareRun id (lift x) (lift (bareResult id x)) := by
  cases x with
  | ok a => exact .pure rfl
  | error d => exact fail_bare _ _

theorem lift_toTy_bare (t : TypeExpr) : BareRun id (lift t.toTy) (lift t.bare.toTy) := by
  rw [t.toTy_bare]
  exact lift_bare _

theorem openScope_bare (kind : ScopeKind) (parent : Nat) :
    BareRun id (openScope kind parent) (openScope kind parent) :=
  .of_ok fun _ => ⟨_, _, rfl⟩

theorem define_bare (scope : Nat) (name : String) (ty : Ty) :
    BareRun id (define scope name ty) (define scope name ty) :=
  .of_ok fun _ => ⟨_, _, rfl⟩

theorem defineAll_bare (scope : Nat) (named : List (String × Ty)) :
    BareRun id (defineAll scope named) (defineAll scope named) := by
  induction named with
  | nil => exact .pure rfl
  | cons p more ih => exact (define_bare scope p.1 p.2).bind fun _ => ih

theorem rootFor_bare (ty : Ty) (scope : Nat) (position : Position) :
    BareRun id (rootFor ty scope position) (rootFor ty scope .nowhere) := by
  unfold rootFor
  cases ty.mayBeHeap with
  | false => exact .pure rfl
  | true =>
    intro c
    simp only [↓reduceIte]
    cases c.scopes.takeRootSlot? scope <;> rfl

theorem sameActivation_bare (scope definedIn : Nat) (position : Position) :
    BareRun id (sameActivation scope definedIn position)
      (sameActivation scope definedIn .nowhere) := by
  refine BareRun.get.bind fun c => ?_
  simp only [id_eq]
  split
  · exact .pure rfl
  · exact fail_bare _ _

theorem expectTy_bare (expected received : Ty) (position : Position) :
    BareRun id (expectTy expected received position) (expectTy expected received .nowhere) := by
  unfold expectTy
  split
  · exact .pure rfl
  · exact fail_bare _ _

theorem checkName_bare (scope : Nat) (name : String) (span : Span) :
    BareRun Typed.Expr.bare (checkName scope name span)
      (checkName scope name (.empty .nowhere)) := by
  refine BareRun.get.bind fun c => ?_
  simp only [id_eq]
  cases c.find? scope name with
  | none => exact fail_bare _ _
  | some found =>
    obtain ⟨ty, level, origin⟩ := found
    have hname : BareRun Typed.Expr.bare
        (if ty.isProcedure then fail .firstClassProcedure span.start
          else pure (.name ⟨ty, none, span⟩ name level origin))
        (if ty.isProcedure then fail .firstClassProcedure .nowhere
          else pure (.name ⟨ty, none, .empty .nowhere⟩ name level origin)) := by
      split
      · exact fail_bare _ _
      · exact .pure rfl
    cases origin with
    | lexical definedIn => exact (sameActivation_bare _ _ _).bind fun _ => hname
    | global | builtin => exact hname

/-- A callee that is not a literal has no place. -/
theorem checkCalleeName_bare (scope : Nat) (name : String) (span : Span) :
    BareRun (fun c => (Typed.Expr.bareCallee c.1, c.2)) (checkCalleeName scope name span)
      (checkCalleeName scope name (.empty .nowhere)) := by
  refine BareRun.get.bind fun c => ?_
  simp only [id_eq]
  split
  · refine (sameActivation_bare _ _ _).bind fun _ => ?_
    split
    · exact fail_bare _ _
    · exact fail_bare _ _
  · split
    · split
      · exact .pure rfl
      · exact fail_bare _ _
    · split
      · exact .pure rfl
      · exact fail_bare _ _

theorem refuseCallee_bare {g : α → β} (callee : Typed.Expr) :
    BareRun g (refuseCallee callee) (refuseCallee callee.bare) := by
  unfold refuseCallee
  rw [Typed.Expr.ty_bare, Typed.Expr.span_bare]
  split
  · exact fail_bare _ _
  · exact fail_bare _ _

theorem fillHole_bare (expected : Ty) (operand : Typed.Expr) :
    BareRun Typed.Expr.bare (fillHole expected operand) (fillHole expected operand.bare) := by
  cases operand with
  | name i z level origin =>
    obtain ⟨ty, root?, span⟩ := i
    cases origin with
    | lexical scope =>
      cases ty with
      | hole => exact (define_bare scope z expected).bind fun _ => .pure rfl
      | _ => exact .pure rfl
    | global | builtin => cases ty <;> exact .pure rfl
  | _ => exact .pure rfl

theorem checkCount_bare (arguments : List Expr) (expected : Nat) (stop : Position) :
    BareRun id (checkCount arguments expected stop)
      (checkCount (Expr.bareAll arguments) expected .nowhere) := by
  unfold checkCount
  rw [Expr.bareAll_eq_map, List.getElem?_map, List.length_map]
  cases arguments[expected]? with
  | some extra =>
    simp only [Option.map_some, Expr.span_bare]
    exact fail_bare _ _
  | none =>
    simp only [Option.map_none]
    split
    · exact fail_bare _ _
    · exact .pure rfl

theorem checkDistinct_bare (seen : List String) (parameters : List Parameter) :
    BareRun id (checkDistinct seen parameters)
      (checkDistinct seen (parameters.map Parameter.bare)) := by
  induction parameters generalizing seen with
  | nil => exact .pure rfl
  | cons p more ih =>
    simp only [List.map_cons, checkDistinct, Parameter.bare]
    split
    · exact fail_bare _ _
    · exact ih _

theorem writtenTypes_bare (parameters : List Parameter) :
    writtenTypes (parameters.map Parameter.bare) = bareResult id (writtenTypes parameters) := by
  induction parameters with
  | nil => rfl
  | cons p more ih =>
    obtain ⟨name, type?, span⟩ := p
    rw [List.map_cons, writtenTypes, writtenTypes, ih]
    cases type? with
    | none => cases writtenTypes more <;> rfl
    | some t =>
      simp only [Parameter.bare, Option.map_some, t.toTy_bare]
      cases t.toTy with
      | error d => rfl
      | ok ty => cases writtenTypes more <;> rfl

theorem checkNoHole_bare (parameters : List Parameter) (tys : List Ty) :
    BareRun id (checkNoHole (parameters.zip tys))
      (checkNoHole ((parameters.map Parameter.bare).zip tys)) := by
  induction parameters generalizing tys with
  | nil => exact .pure rfl
  | cons p more ih =>
    cases tys with
    | nil => exact .pure rfl
    | cons ty tys =>
      simp only [List.map_cons, List.zip_cons_cons, checkNoHole, Parameter.bare]
      split
      · exact fail_bare _ _
      · exact ih tys

theorem names_bare (parameters : List Parameter) :
    (parameters.map Parameter.bare).map (·.name) = parameters.map (·.name) := by
  rw [List.map_map]
  rfl

theorem openProcedure_bare (parent : Nat) (named : List (String × Ty)) :
    BareRun id (openProcedure parent named) (openProcedure parent named) :=
  (openScope_bare .procedure parent).bind fun _ => (defineAll_bare _ named).bind fun _ => .pure rfl

theorem closeProcedure_bare (parameters : List Parameter) (tys : List Ty)
    (result? : Option TypeExpr) (scope : Nat) (body : Typed.Expr) (span : Span) :
    BareRun Typed.Procedure.bare (closeProcedure parameters tys result? scope body span)
      (closeProcedure (parameters.map Parameter.bare) tys (result?.map TypeExpr.bare) scope
        body.bare (.empty .nowhere)) := by
  refine (checkNoHole_bare parameters tys).bind fun _ => ?_
  rw [names_bare, Typed.Expr.ty_bare]
  cases result? with
  | none => exact BareRun.get.bind fun c => .pure rfl
  | some t =>
    refine (lift_toTy_bare t).bind fun declared => ?_
    simp only [id_eq, TypeExpr.position_bare]
    split
    · exact BareRun.get.bind fun c => .pure rfl
    · exact (fail_bare (g := id) _ _).bind fun _ => BareRun.get.bind fun c => .pure rfl

end Check

open Check

namespace Expr

theorem isCallable_bare (e : Expr) : e.bare.isCallable = e.isCallable := by
  cases e with
  | branch c x y? s => cases y? <;> rfl
  | _ => rfl

theorem check_call_refused_bare {callee : Expr} (h : callee.isCallable = false) {scope : Nat}
    (hcallee : BareRun Typed.Expr.bare (callee.check scope) (callee.bare.check scope))
    (arguments : List Expr) (span : Span) :
    BareRun Typed.Expr.bare (check scope (.call callee arguments span))
      (check scope (call callee arguments span).bare) := by
  rw [bare, check_call_refused h, check_call_refused (by rw [isCallable_bare, h])]
  exact hcallee.bind fun x => refuseCallee_bare x

end Expr

/-- What is checked of a call after the callee. -/
theorem Check.call_bare {scope : Nat} {arguments : List Expr}
    (ha : ∀ tys, BareRun Typed.Expr.bareAll (checkArguments scope arguments tys)
      (checkArguments scope (Expr.bareAll arguments) tys))
    (c : Typed.Callee Typed.Expr) (signature : Ty) (span : Span) :
    BareRun Typed.Expr.bare
      (match signature with
        | .proc parameters result => do
          checkCount arguments parameters.length span.stop
          let arguments ← checkArguments scope arguments parameters
          let root? ← rootFor result scope span.start
          return .call ⟨result, root?, span⟩ c arguments
        | other => fail (.notCallable other.display) span.start)
      (match signature with
        | .proc parameters result => do
          checkCount (Expr.bareAll arguments) parameters.length .nowhere
          let arguments ← checkArguments scope (Expr.bareAll arguments) parameters
          let root? ← rootFor result scope .nowhere
          return .call ⟨result, root?, .empty .nowhere⟩ (Typed.Expr.bareCallee c) arguments
        | other => fail (.notCallable other.display) .nowhere) := by
  cases signature with
  | proc parameters result =>
    exact (checkCount_bare _ _ _).bind fun _ => (ha parameters).bind fun es =>
      (rootFor_bare _ _ _).bind fun root? => .pure rfl
  | _ => exact fail_bare _ _

mutual

theorem Expr.check_bare (scope : Nat) : ∀ e : Expr,
    BareRun Typed.Expr.bare (e.check scope) (e.bare.check scope)
  | .number _ _ => by
    rw [Expr.bare, Expr.check, Expr.check]
    exact .pure rfl
  | .text _ _ => by
    rw [Expr.bare, Expr.check, Expr.check]
    exact .pure rfl
  | .boolean _ _ => by
    rw [Expr.bare, Expr.check, Expr.check]
    exact .pure rfl
  | .unit _ => by
    rw [Expr.bare, Expr.check, Expr.check]
    exact .pure rfl
  | .name z span => by
    rw [Expr.bare, Expr.check, Expr.check]
    exact checkName_bare scope z span
  | .unary operator operand span => by
    rw [Expr.bare, Expr.check, Expr.check, Token.bare]
    cases UnaryOp.ofKind? operator.kind with
    | none => exact fail_bare _ _
    | some op =>
      refine (Expr.check_bare scope operand).bind fun x => (fillHole_bare op.ty x).bind fun y => ?_
      rw [Typed.Expr.ty_bare]
      split
      · exact .pure rfl
      · exact fail_bare _ _
  | .binary left operator right span => by
    rw [Expr.bare, Expr.check, Expr.check, Token.bare]
    cases BinaryOp.ofKind? operator.kind with
    | none => exact fail_bare _ _
    | some op =>
      refine (Expr.check_bare scope left).bind fun l => ?_
      refine (Expr.check_bare scope right).bind fun r => ?_
      simp only [Typed.Expr.ty_bare, Typed.Expr.span_bare]
      refine (expectTy_bare _ _ _).bind fun _ => ?_
      split
      · exact .pure rfl
      · exact fail_bare _ _
  | .call callee arguments span => by
    cases callee with
    | procedure literal =>
      rw [Expr.bare, Expr.bare, Expr.check, Expr.check]
      refine (Procedure.check_bare scope literal).bind fun p => ?_
      exact (BareRun.pure (g := fun c => (Typed.Expr.bareCallee c.1, c.2))
        (by rw [Typed.Expr.bareCallee_literal]; rfl)).bind fun c =>
        call_bare (fun tys => checkArguments_bare scope arguments tys) c.1 c.2 span
    | name z s =>
      rw [Expr.bare, Expr.bare, Expr.check, Expr.check]
      exact (checkCalleeName_bare scope z s).bind fun c =>
        call_bare (fun tys => checkArguments_bare scope arguments tys) c.1 c.2 span
    | _ => exact Expr.check_call_refused_bare rfl (Expr.check_bare scope _) arguments span
  | .branch condition thenArm none span => by
    rw [Expr.bare, Expr.check, Expr.check]
    refine (Expr.check_bare scope condition).bind fun c => ?_
    rw [Typed.Expr.ty_bare, Typed.Expr.span_bare]
    refine (expectTy_bare _ _ _).bind fun _ => (Expr.check_bare scope thenArm).bind fun x => ?_
    refine (BareRun.pure (g := Typed.Expr.bare) rfl).bind fun y => ?_
    simp only [Typed.Expr.ty_bare, Typed.Expr.span_bare]
    exact (expectTy_bare _ _ _).bind fun _ => .pure rfl
  | .branch condition thenArm (some elseArm) span => by
    rw [Expr.bare, Expr.check, Expr.check]
    refine (Expr.check_bare scope condition).bind fun c => ?_
    rw [Typed.Expr.ty_bare, Typed.Expr.span_bare]
    refine (expectTy_bare _ _ _).bind fun _ => (Expr.check_bare scope thenArm).bind fun x =>
      (Expr.check_bare scope elseArm).bind fun y => ?_
    simp only [Typed.Expr.ty_bare, Typed.Expr.span_bare]
    exact (expectTy_bare _ _ _).bind fun _ => .pure rfl
  | .letIn declarations body span => by
    rw [Expr.bare, Expr.check, Expr.check]
    refine (openScope_bare .letIn scope).bind fun inner =>
      (checkDeclarations_bare inner declarations).bind fun ds =>
      (Expr.check_bare inner body).bind fun x => ?_
    rw [Typed.Expr.ty_bare]
    exact (rootFor_bare _ _ _).bind fun root? => .pure rfl
  | .procedure literal => by
    rw [Expr.bare, Expr.check, Expr.check, Expr.span_bareProcedure]
    exact fail_bare _ _
  | .block body span => by
    rw [Expr.bare, Expr.check, Expr.check]
    refine (checkAll_bare scope body).bind fun es => ?_
    rw [Typed.Expr.last_ty_bareAll]
    exact .pure rfl

theorem checkAll_bare (scope : Nat) : ∀ es : List Expr,
    BareRun Typed.Expr.bareAll (checkAll scope es) (checkAll scope (Expr.bareAll es))
  | [] => by
    rw [Expr.bareAll, checkAll]
    exact .pure rfl
  | e :: more => by
    rw [Expr.bareAll, checkAll, checkAll]
    exact (Expr.check_bare scope e).bind fun x =>
      (checkAll_bare scope more).bind fun xs => .pure rfl

theorem checkArguments_bare (scope : Nat) : ∀ (es : List Expr) (tys : List Ty),
    BareRun Typed.Expr.bareAll (checkArguments scope es tys)
      (checkArguments scope (Expr.bareAll es) tys)
  | [], _ => by
    simp only [Expr.bareAll, checkArguments]
    exact .pure rfl
  | _ :: _, [] => by
    simp only [Expr.bareAll, checkArguments]
    exact .pure rfl
  | e :: more, ty :: tys => by
    rw [Expr.bareAll, checkArguments, checkArguments]
    refine (Expr.check_bare scope e).bind fun x => ?_
    rw [Typed.Expr.ty_bare, Typed.Expr.span_bare]
    split
    · exact (checkArguments_bare scope more tys).bind fun xs => .pure rfl
    · exact (fail_bare (g := id) _ _).bind fun _ =>
        (checkArguments_bare scope more tys).bind fun xs => .pure rfl

theorem checkDeclarations_bare (scope : Nat) : ∀ ds : List (Declaration Expr),
    BareRun Typed.Expr.bareDeclarations (checkDeclarations scope ds)
      (checkDeclarations scope (Expr.bareDeclarations ds))
  | [] => by
    simp only [Expr.bareDeclarations, checkDeclarations]
    exact .pure rfl
  | ⟨z, type?, value, span⟩ :: more => by
    rw [Expr.bareDeclarations, checkDeclarations, checkDeclarations]
    refine (Expr.check_bare scope value).bind fun x => ?_
    rw [Typed.Expr.ty_bare]
    cases type? with
    | none =>
      exact (define_bare _ _ _).bind fun _ =>
        (checkDeclarations_bare scope more).bind fun xs => .pure rfl
    | some t =>
      exact (lift_toTy_bare t).bind fun declared => (expectTy_bare _ _ _).bind fun _ =>
        (define_bare _ _ _).bind fun _ =>
        (checkDeclarations_bare scope more).bind fun xs => .pure rfl

theorem Procedure.check_bare (parent : Nat) : ∀ l : Procedure Expr,
    BareRun Typed.Procedure.bare (Procedure.check parent l)
      (Procedure.check parent (Expr.bareProcedure l))
  | ⟨parameters, result?, body, span⟩ => by
    rw [Expr.bareProcedure, Procedure.check, Procedure.check, names_bare, writtenTypes_bare]
    refine (checkDistinct_bare [] parameters).bind fun _ => (lift_bare _).bind fun written =>
      (openProcedure_bare parent _).bind fun first => (Expr.check_bare first body).bind fun x =>
      BareRun.get.bind fun c => ?_
    simp only [id_eq]
    split
    · exact (openProcedure_bare parent _).bind fun second =>
        (Expr.check_bare second body).bind fun y => closeProcedure_bare _ _ _ _ _ _
    · exact closeProcedure_bare _ _ _ _ _ _

end

namespace Item

theorem parameterTypes_bare (name : String) (start : Position) (parameters : List Parameter) :
    parameterTypes name .nowhere (parameters.map Parameter.bare) =
      bareResult id (parameterTypes name start parameters) := by
  induction parameters with
  | nil => rfl
  | cons p more ih =>
    obtain ⟨z, type?, span⟩ := p
    cases type? with
    | none => rfl
    | some t =>
      simp only [List.map_cons, parameterTypes, Parameter.bare, Option.map_some, t.toTy_bare, ih]
      cases t.toTy with
      | error d => rfl
      | ok ty => cases parameterTypes name start more <;> rfl

theorem signature_bare (name : String) (literal : Procedure Expr) (start : Position) :
    signature name (Expr.bareProcedure literal) .nowhere =
      bareResult id (signature name literal start) := by
  obtain ⟨parameters, result?, body, span⟩ := literal
  simp only [signature, Expr.bareProcedure, parameterTypes_bare name start]
  cases parameterTypes name start parameters with
  | error d => rfl
  | ok tys =>
    cases result? with
    | none => rfl
    | some t =>
      simp only [Option.map_some, t.toTy_bare]
      cases t.toTy <;> rfl

theorem checkNew_bare (name : String) (start : Position) :
    BareRun id (checkNew name start) (checkNew name .nowhere) := by
  refine BareRun.get.bind fun c => ?_
  simp only [id_eq]
  split
  · exact fail_bare _ _
  · split
    · exact fail_bare _ _
    · exact .pure rfl

theorem declareGlobal_bare (name : String) (ty : Ty) :
    BareRun id (declareGlobal name ty) (declareGlobal name ty) :=
  .of_ok fun _ => ⟨_, _, rfl⟩

theorem declare_bare (item : Item) : BareRun id item.declare item.bare.declare := by
  cases item with
  | procedure name literal span =>
    have hsignature := lift_bare (signature name literal span.start)
    rw [← signature_bare] at hsignature
    exact (checkNew_bare name _).bind fun _ => hsignature.bind fun ty => declareGlobal_bare name ty
  | constant name type? value span =>
    refine (checkNew_bare name _).bind fun _ => ?_
    cases type? with
    | none => exact fail_bare _ _
    | some t => exact (lift_toTy_bare t).bind fun ty => declareGlobal_bare name ty
  | mutable name type? value span => exact fail_bare _ _
  | entry body span => exact .pure rfl

theorem declareAll_bare (items : List Item) :
    BareRun id (declareAll items) (declareAll (items.map bare)) := by
  induction items with
  | nil => exact .pure rfl
  | cons item more ih => exact (declare_bare item).bind fun _ => ih

theorem isConstantValue_bare (e : Expr) : isConstantValue e.bare = isConstantValue e := by
  cases e with
  | unary operator operand span =>
    cases operand with
    | branch c x y? s => cases y? <;> rfl
    | _ => rfl
  | branch c x y? s => cases y? <;> rfl
  | _ => rfl

theorem checkConstant_bare (name : String) (type? : Option TypeExpr) (value : Expr) (span : Span) :
    BareRun Typed.Constant.bare (checkConstant name type? value span)
      (checkConstant name (type?.map TypeExpr.bare) value.bare (.empty .nowhere)) := by
  unfold checkConstant
  rw [isConstantValue_bare, Expr.span_bare]
  split
  · cases type? with
    | none => exact fail_bare _ _
    | some t =>
      refine (lift_toTy_bare t).bind fun ty => BareRun.get.bind fun c =>
        (Expr.check_bare c.moduleScope value).bind fun x => ?_
      rw [Typed.Expr.ty_bare, Typed.Expr.span_bare]
      simp only [id_eq]
      split
      · exact .pure rfl
      · exact fail_bare _ _
  · exact fail_bare _ _

theorem checkEntry_bare (body : Expr) (span : Span) :
    BareRun Typed.Procedure.bare (checkEntry body span)
      (checkEntry body.bare (.empty .nowhere)) := by
  refine BareRun.get.bind fun c => (openScope_bare .procedure _).bind fun scope =>
    (Expr.check_bare scope body).bind fun x => BareRun.get.bind fun c' => .pure ?_
  rw [Typed.Expr.ty_bare]
  rfl

theorem check_bare (item : Item) : BareRun Typed.Item.bare item.check item.bare.check := by
  cases item with
  | procedure name literal span =>
    exact BareRun.get.bind fun c => (Procedure.check_bare c.moduleScope literal).bind fun p =>
      .pure rfl
  | constant name type? value span =>
    exact (checkConstant_bare name type? value span).bind fun c => .pure rfl
  | mutable name type? value span => exact fail_bare _ _
  | entry body span => exact (checkEntry_bare body span).bind fun p => .pure rfl

theorem checkAll_bare (items : List Item) :
    BareRun (List.map Typed.Item.bare) (checkAll items) (checkAll (items.map bare)) := by
  induction items with
  | nil => exact .pure rfl
  | cons item more ih => exact (check_bare item).bind fun x => ih.bind fun xs => .pure rfl

end Item

/-- Checking a module without places gives what checking gives, without places. -/
theorem Module.check_bare (m : Module) : m.bare.check = bareResult Typed.Module.bare m.check := by
  have hrun : BareRun (List.map Typed.Item.bare)
      (do Item.declareAll m.items; Item.checkAll m.items)
      (do Item.declareAll m.bare.items; Item.checkAll m.bare.items) :=
    (Item.declareAll_bare m.items).bind fun _ => Item.checkAll_bare m.items
  unfold check
  simp only [hrun Context.initial]
  cases (do Item.declareAll m.items; Item.checkAll m.items : Check (List Typed.Item))
      Context.initial with
  | ok items c => exact congrArg Except.ok (Typed.Module.bare_ofItems items)
  | error d c => rfl

end RootedC
