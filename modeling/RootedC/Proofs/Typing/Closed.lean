import RootedC.Proofs.Outcome
import RootedC.Proofs.Typing.Settled

/-!
What checks are made of. Most of a check asks questions: it leaves the context as it is and, where
it complains, complains about what is written. The rest opens scopes, binds names, fills holes and
takes root slots; a property of checks that is closed under these holds of the check of every
expression.
-/
namespace RootedC

namespace Cause

/-- What a written type can be refused for. -/
def isOfType : Cause → Bool
  | .unknownType _ | .collectionType => true
  | _ => false

theorem ne_of_isOfType {cause other : Cause} (h : cause.isOfType = true)
    (ho : other.isOfType = false) : cause ≠ other := by
  rintro rfl
  rw [h] at ho
  cases ho

/-- What is wrong with a program, and not with the place it is checked in: no activation is missing
and types that do not match are different. -/
def Sincere : Cause → Prop
  | noActivation => False
  | mismatch expected received | argumentMismatch expected received =>
    ∃ t u : Ty, t ≠ u ∧ expected = t.display ∧ received = u.display
  | _ => True

theorem sincere_of_isOfType {cause : Cause} (h : cause.isOfType = true) : cause.Sincere := by
  cases cause with
  | noActivation | mismatch | argumentMismatch => cases h
  | _ => trivial

theorem Sincere.ne_noActivation {cause : Cause} (h : cause.Sincere) : cause ≠ .noActivation := by
  rintro rfl
  exact h

end Cause

theorem Ty.ne_of_not_agrees {t u : Ty} (h : ¬ t.agrees u = true) : t ≠ u := by
  rintro rfl
  exact h (by simp [agrees])

/-- Whatever is refused is refused for a cause `R`. -/
def Refused {α : Type} (R : Cause → Prop) (x : Except Diagnostic α) : Prop :=
  ∀ d, x = .error d → R d.cause

namespace Refused

variable {α β : Type} {R : Cause → Prop}

theorem ok (a : α) : Refused R (.ok a) := nofun

theorem error {cause : Cause} {position : Position} (h : R cause) :
    Refused R (.error ⟨cause, position⟩ : Except Diagnostic α) := by
  rintro d ⟨⟩
  exact h

theorem bind {x : Except Diagnostic α} {f : α → Except Diagnostic β} (hx : Refused R x)
    (hf : ∀ a, Refused R (f a)) : Refused R (x >>= f) := by
  cases x with
  | ok a => exact hf a
  | error d =>
    rintro e ⟨⟩
    exact hx d rfl

theorem sincere {x : Except Diagnostic α} (h : Refused (·.isOfType = true) x) :
    Refused Cause.Sincere x :=
  fun d hd => Cause.sincere_of_isOfType (h d hd)

end Refused

/-! Written types are refused for what is written, never for where it stands. -/
section Written

mutual

theorem TypeExpr.toTy_refused : ∀ a : TypeExpr, Refused (·.isOfType = true) a.toTy
  | .name z p => by
    rw [toTy]
    split
    · exact .ok _
    · exact .error rfl
  | .array a p => by
    rw [toTy]
    exact .error rfl
  | .proc parameters result p => by
    rw [toTy]
    exact (toTys_refused parameters).bind fun _ => (toTy_refused result).bind fun _ => .ok _

theorem TypeExpr.toTys_refused : ∀ as : List TypeExpr, Refused (·.isOfType = true) (toTys as)
  | [] => .ok _
  | a :: more => by
    rw [toTys]
    exact (toTy_refused a).bind fun _ => (toTys_refused more).bind fun _ => .ok _

end

theorem Check.writtenTypes_refused (ps : List Parameter) :
    Refused (·.isOfType = true) (writtenTypes ps) := by
  induction ps with
  | nil => exact .ok _
  | cons p more ih =>
    have hrest (ty : Ty) : Refused (·.isOfType = true)
        (writtenTypes more >>= fun tys => Pure.pure (ty :: tys)) := ih.bind fun _ => .ok _
    rw [writtenTypes]
    cases p.type? with
    | none => exact hrest _
    | some t => exact t.toTy_refused.bind hrest

theorem Item.parameterTypes_refused (name : String) (start : Position) (ps : List Parameter) :
    Refused Cause.Sincere (parameterTypes name start ps) := by
  induction ps with
  | nil => exact .ok _
  | cons p more ih =>
    rw [parameterTypes]
    cases p.type? with
    | none => exact .error trivial
    | some t => exact t.toTy_refused.sincere.bind fun _ => ih.bind fun _ => .ok _

theorem Item.signature_refused (name : String) (literal : Procedure Expr) (start : Position) :
    Refused Cause.Sincere (signature name literal start) := by
  refine (parameterTypes_refused name start literal.parameters).bind fun _ => ?_
  cases literal.result? with
  | none => exact .error trivial
  | some t => exact t.toTy_refused.sincere.bind fun _ => .ok _

end Written

namespace Check

/-- A check that leaves the context as it is and complains of nothing but what is written. -/
def Asks {α : Type} (x : Check α) : Prop :=
  ∀ c, match x c with
    | .ok _ c' => c' = c
    | .error d c' => c' = c ∧ d.cause.Sincere

namespace Asks

variable {α β : Type} {x y : Check α}

theorem pure (v : α) : Asks (Pure.pure v) := fun _ => rfl

theorem get : Asks (MonadState.get : Check Context) := fun _ => rfl

theorem fail {cause : Cause} (position : Position) (h : cause.Sincere) :
    Asks (Check.fail cause position : Check α) :=
  fun _ => ⟨rfl, h⟩

theorem bind {f : α → Check β} (hx : Asks x) (hf : ∀ v, Asks (f v)) : Asks (x >>= f) := by
  intro c
  have hc := hx c
  rw [bind_run]
  generalize x c = r at hc ⊢
  cases r with
  | ok v c' =>
    obtain rfl : c' = c := hc
    exact hf v c'
  | error d c' => exact hc

theorem ite {p : Prop} [Decidable p] (hx : p → Asks x) (hy : ¬ p → Asks y) :
    Asks (if p then x else y) := by
  split
  · exact hx ‹_›
  · exact hy ‹_›

theorem lift {z : Except Diagnostic α} (h : Refused Cause.Sincere z) : Asks (Check.lift z) := by
  cases z with
  | ok v => exact pure v
  | error d => exact fail _ (h d rfl)

theorem toTy (t : TypeExpr) : Asks (Check.lift t.toTy) := lift t.toTy_refused.sincere

theorem expectTy (expected received : Ty) (position : Position) :
    Asks (Check.expectTy expected received position) :=
  .ite (fun _ => .pure _) fun h => .fail _ ⟨_, _, Ty.ne_of_not_agrees h, rfl, rfl⟩

theorem sameActivation (id definedIn : Nat) (position : Position) :
    Asks (Check.sameActivation id definedIn position) :=
  Asks.get.bind fun _ => .ite (fun _ => .pure _) fun _ => .fail _ trivial

theorem checkName (scope : Nat) (name : String) (span : Span) :
    Asks (Check.checkName scope name span) := by
  refine Asks.get.bind fun c => ?_
  cases c.find? scope name with
  | none => exact .fail _ trivial
  | some found =>
    obtain ⟨ty, level, origin⟩ := found
    have hname : Asks (if ty.isProcedure then Check.fail .firstClassProcedure span.start
        else Pure.pure (Typed.Expr.name ⟨ty, none, span⟩ name level origin)) :=
      .ite (fun _ => .fail _ trivial) fun _ => .pure _
    cases origin with
    | lexical definedIn => exact (Asks.sameActivation _ _ _).bind fun _ => hname
    | global | builtin => exact hname

theorem checkCalleeName (scope : Nat) (name : String) (span : Span) :
    Asks (Check.checkCalleeName scope name span) := by
  refine Asks.get.bind fun c => ?_
  cases c.scopes.find? scope name with
  | some r =>
    exact (Asks.sameActivation _ _ _).bind fun _ =>
      .ite (fun _ => .fail _ trivial) fun _ => .fail _ trivial
  | none =>
    cases c.globals.get? name with
    | some ty => exact .ite (fun _ => .pure _) fun _ => .fail _ trivial
    | none =>
      cases Builtin.find? name with
      | some b => exact .pure _
      | none => exact .fail _ trivial

theorem refuseCallee (callee : Typed.Expr) : Asks (Check.refuseCallee callee : Check α) :=
  .ite (fun _ => .fail _ trivial) fun _ => .fail _ trivial

theorem checkCount (arguments : List Expr) (expected : Nat) (stop : Position) :
    Asks (Check.checkCount arguments expected stop) := by
  unfold Check.checkCount
  cases arguments[expected]? with
  | some extra => exact .fail _ trivial
  | none => exact .ite (fun _ => .fail _ trivial) fun _ => .pure _

theorem checkDistinct (seen : List String) (ps : List Parameter) :
    Asks (Check.checkDistinct seen ps) := by
  induction ps generalizing seen with
  | nil => exact .pure _
  | cons p more ih => exact .ite (fun _ => .fail _ trivial) fun _ => ih _

theorem checkNoHole (ps : List (Parameter × Ty)) : Asks (Check.checkNoHole ps) := by
  induction ps with
  | nil => exact .pure _
  | cons p more ih => exact .ite (fun _ => .fail _ trivial) fun _ => ih

theorem closeProcedure (ps : List Parameter) (tys : List Ty) (result? : Option TypeExpr) (id : Nat)
    (body : Typed.Expr) (span : Span) :
    Asks (Check.closeProcedure ps tys result? id body span) := by
  refine (Asks.checkNoHole _).bind fun _ => ?_
  cases result? with
  | none => exact Asks.get.bind fun _ => .pure _
  | some t =>
    refine (Asks.toTy t).bind fun declared => ?_
    -- the result must have the very type that is written, so a hole is no excuse here
    split
    · exact Asks.get.bind fun _ => .pure _
    · next h =>
      have hne : declared ≠ body.ty := fun he => h (beq_iff_eq.mpr he)
      have hcause : (Cause.mismatch declared.display body.ty.display).Sincere :=
        ⟨_, _, hne, rfl, rfl⟩
      exact (Asks.fail _ hcause).bind fun _ => Asks.get.bind fun _ => .pure _

theorem checkNew (name : String) (start : Position) : Asks (Item.checkNew name start) :=
  Asks.get.bind fun _ => .ite (fun _ => .fail _ trivial) fun _ =>
    .ite (fun _ => .fail _ trivial) fun _ => .pure _

end Asks

end Check

namespace Expr

open Check

/-- The forms that stand in the place of a callee. -/
def isCallable : Expr → Bool
  | procedure _ | name _ _ => true
  | _ => false

/-- Of a call of something else, only the callee is looked at. -/
theorem check_call_refused {callee : Expr} (h : callee.isCallable = false) (scope : Nat)
    (arguments : List Expr) (span : Span) :
    check scope (.call callee arguments span) = callee.check scope >>= refuseCallee := by
  have hrefuse {α β : Type} (x : Typed.Expr) (f : α → Check β) :
      (refuseCallee x >>= f) = refuseCallee x := by
    unfold refuseCallee
    split <;> rfl
  rw [check]
  · simp only [hrefuse]
  · rintro l rfl
    cases h
  · rintro z s rfl
    cases h

end Expr

namespace Check

/-- A property of checks in a scope that has all that the checks of expressions are made of. A let
binds names in the scope it has opened; what a procedure does is told of its body. -/
structure Closed (P : Nat → (α : Type) → Check α → Prop) : Prop where
  ask {scope : Nat} {α : Type} {x : Check α} : Asks x → P scope α x
  bind {scope : Nat} {α β : Type} {x : Check α} {f : α → Check β} :
    P scope α x → (∀ v, P scope β (f v)) → P scope β (x >>= f)
  fill {scope : Nat} {e : Expr} (op : UnaryOp) :
    P scope _ (e.check scope) → P scope _ (e.check scope >>= fillHole op.ty)
  root (scope : Nat) (ty : Ty) (position : Position) : P scope _ (rootFor ty scope position)
  openLet {scope : Nat} {α : Type} {f : Nat → Check α} :
    (∀ inner, (∀ name ty, P inner _ (define inner name ty)) → P inner α (f inner)) →
      P scope α (openScope .letIn scope >>= f)
  procedure {parent : Nat} (literal : Procedure Expr) :
    (∀ inner, P inner _ (literal.body.check inner)) → P parent _ (literal.check parent)

namespace Closed

variable {P : Nat → (α : Type) → Check α → Prop} {scope : Nat}

theorem pure (hP : Closed P) {α : Type} (v : α) : P scope α (Pure.pure v) := hP.ask (.pure v)

theorem fail (hP : Closed P) {α : Type} {cause : Cause} (position : Position) (h : cause.Sincere) :
    P scope α (Check.fail cause position) :=
  hP.ask (.fail _ h)

theorem expectTy (hP : Closed P) (expected received : Ty) (position : Position) :
    P scope _ (Check.expectTy expected received position) :=
  hP.ask (.expectTy _ _ _)

/-- What is checked of a call after the callee. -/
theorem call (hP : Closed P) {arguments : List Expr}
    (ha : ∀ tys, P scope _ (RootedC.checkArguments scope arguments tys))
    (c : Typed.Callee Typed.Expr) (signature : Ty) (span : Span) :
    P scope _
      (match signature with
        | .proc parameters result => do
          Check.checkCount arguments parameters.length span.stop
          let arguments ← RootedC.checkArguments scope arguments parameters
          let root? ← Check.rootFor result scope span.start
          return .call ⟨result, root?, span⟩ c arguments
        | other => Check.fail (.notCallable other.display) span.start : Check Typed.Expr) := by
  cases signature with
  | proc parameters result =>
    exact hP.bind (hP.ask (.checkCount _ _ _)) fun _ => hP.bind (ha _) fun _ =>
      hP.bind (hP.root _ _ _) fun _ => hP.pure _
  | _ => exact hP.fail _ trivial

mutual

theorem check (hP : Closed P) : ∀ (e : Expr) (scope : Nat), P scope _ (e.check scope)
  | .number _ _, scope | .text _ _, scope | .boolean _ _, scope | .unit _, scope => by
    rw [Expr.check]
    exact hP.pure _
  | .name name span, scope => by
    rw [Expr.check]
    exact hP.ask (.checkName scope name span)
  | .unary operator operand span, scope => by
    rw [Expr.check]
    cases UnaryOp.ofKind? operator.kind with
    | none => exact hP.fail _ trivial
    | some op =>
      simp only [← bind_assoc]
      exact hP.bind (hP.fill op (check hP operand scope)) fun x =>
        hP.ask (.ite (fun _ => .pure _) fun _ => .fail _ trivial)
  | .binary left operator right span, scope => by
    rw [Expr.check]
    cases BinaryOp.ofKind? operator.kind with
    | none => exact hP.fail _ trivial
    | some op =>
      exact hP.bind (check hP left scope) fun l => hP.bind (check hP right scope) fun r =>
        hP.bind (hP.expectTy _ _ _) fun _ =>
          hP.ask (.ite (fun _ => .pure _) fun _ => .fail _ trivial)
  | .call callee arguments span, scope => by
    have harguments : ∀ tys, P scope _ (RootedC.checkArguments scope arguments tys) :=
      checkArguments hP arguments
    cases callee with
    | procedure literal =>
      rw [Expr.check]
      exact hP.bind (checkProcedure hP literal scope) fun p =>
        hP.call harguments (.literal p) p.ty span
    | name name nameSpan =>
      rw [Expr.check]
      exact hP.bind (hP.ask (.checkCalleeName scope name nameSpan)) fun c =>
        hP.call harguments c.1 c.2 span
    | _ =>
      rw [Expr.check_call_refused rfl]
      exact hP.bind (check hP _ scope) fun x => hP.ask (.refuseCallee x)
  | .branch condition thenArm elseArm? span, scope => by
    rw [Expr.check]
    refine hP.bind (check hP condition scope) fun c => hP.bind (hP.expectTy _ _ _) fun _ =>
      hP.bind (check hP thenArm scope) fun t => ?_
    have helse (f : Typed.Expr) : P scope _ (do
        Check.expectTy t.ty f.ty f.span.start
        return Typed.Expr.branch ⟨t.ty.settle f.ty, none, span⟩ c t f) :=
      hP.bind (hP.expectTy _ _ _) fun _ => hP.pure _
    cases elseArm? with
    | some elseArm => exact hP.bind (check hP elseArm scope) helse
    | none => exact helse _
  | .letIn declarations body span, scope => by
    rw [Expr.check]
    exact hP.openLet fun inner hdefine =>
      hP.bind (checkDeclarations hP declarations hdefine) fun ds =>
        hP.bind (check hP body inner) fun x => hP.bind (hP.root _ _ _) fun _ => hP.pure _
  | .procedure literal, scope => by
    rw [Expr.check]
    exact hP.fail _ trivial
  | .block body span, scope => by
    rw [Expr.check]
    exact hP.bind (checkAll hP body scope) fun es => hP.pure _

theorem checkAll (hP : Closed P) : ∀ (es : List Expr) (scope : Nat),
    P scope _ (RootedC.checkAll scope es)
  | [], scope => by
    rw [RootedC.checkAll]
    exact hP.pure _
  | e :: more, scope => by
    rw [RootedC.checkAll]
    exact hP.bind (check hP e scope) fun te => hP.bind (checkAll hP more scope) fun tes =>
      hP.pure _

theorem checkArguments (hP : Closed P) {scope : Nat} : ∀ (es : List Expr) (tys : List Ty),
    P scope _ (RootedC.checkArguments scope es tys)
  | [], _ | _ :: _, [] => by
    simp only [RootedC.checkArguments]
    exact hP.pure _
  | e :: more, ty :: tys => by
    rw [RootedC.checkArguments]
    refine hP.bind (check hP e scope) fun te => ?_
    have hrest : P scope _ (RootedC.checkArguments scope more tys >>= fun tes =>
        Pure.pure (te :: tes)) := hP.bind (checkArguments hP more tys) fun tes => hP.pure _
    split
    · exact hrest
    · next h =>
      exact hP.bind (hP.fail _ ⟨_, _, Ty.ne_of_not_agrees h, rfl, rfl⟩) fun _ => hrest

theorem checkDeclarations (hP : Closed P) {scope : Nat} : ∀ (ds : List (Declaration Expr)),
    (∀ name ty, P scope _ (Check.define scope name ty)) →
      P scope _ (RootedC.checkDeclarations scope ds)
  | [], _ => by
    rw [RootedC.checkDeclarations]
    exact hP.pure _
  | ⟨name, type?, value, span⟩ :: more, hdefine => by
    rw [RootedC.checkDeclarations]
    refine hP.bind (check hP value scope) fun x => ?_
    have hrest : P scope _ (Check.define scope name x.ty >>= fun _ =>
        RootedC.checkDeclarations scope more >>= fun ds => Pure.pure ((name, x) :: ds)) :=
      hP.bind (hdefine _ _) fun _ => hP.bind (checkDeclarations hP more hdefine) fun ds =>
        hP.pure _
    cases type? with
    | none => exact hrest
    | some t => exact hP.bind (hP.ask (.toTy t)) fun _ => hP.bind (hP.expectTy _ _ _) fun _ => hrest

theorem checkProcedure (hP : Closed P) : ∀ (literal : Procedure Expr) (parent : Nat),
    P parent _ (literal.check parent)
  | ⟨_, _, body, _⟩, _ => hP.procedure _ (check hP body)

end

end Closed

end Check

end RootedC
