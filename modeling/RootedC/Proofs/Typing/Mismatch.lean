import RootedC.Proofs.Typing.Display
import RootedC.Proofs.Typing.Provenance

/-!
Complaints that show an expected and a received type. A check compares types and not their texts, so
that the two texts differ needs that different types are shown differently.
-/
namespace RootedC

/-- Where an expected and a received type are shown, their texts are of types and differ. -/
def Cause.TellsApart : Cause → Prop
  | mismatch expected received | argumentMismatch expected received =>
    expected ≠ received ∧ ∃ t u : Ty, expected = t.display ∧ received = u.display
  | _ => True

/-- Different types are shown differently. -/
theorem Cause.Sincere.tellsApart {cause : Cause} (h : cause.Sincere) : cause.TellsApart := by
  cases cause with
  | mismatch | argumentMismatch =>
    obtain ⟨t, u, hne, rfl, rfl⟩ := h
    exact ⟨Ty.display_injective.ne hne, t, u, rfl, rfl⟩
  | _ => trivial

/-- Every complaint of a check is told apart. -/
def Check.Apart {α : Type} (x : Check α) : Prop :=
  Yields (fun d => d.cause.TellsApart) (fun _ => True) x

namespace Check.Apart

variable {α β : Type}

theorem of_asks {x : Check α} (h : Asks x) : Apart x := by
  intro c
  have hc := h c
  generalize x c = r at hc ⊢
  cases r with
  | ok a c' => trivial
  | error d c' => exact hc.2.tellsApart

theorem bind {x : Check α} {f : α → Check β} (hx : Apart x) (hf : ∀ a, Apart (f a)) :
    Apart (x >>= f) :=
  Yields.bind hx fun a _ => hf a

theorem ite {p : Prop} [Decidable p] {x y : Check α} (hx : Apart x) (hy : Apart y) :
    Apart (if p then x else y) := by
  split
  · exact hx
  · exact hy

theorem openScope (kind : ScopeKind) (parent : Nat) : Apart (Check.openScope kind parent) :=
  Yields.of_ok fun _ => ⟨_, _, rfl⟩

theorem define (scope : Nat) (name : String) (ty : Ty) : Apart (Check.define scope name ty) :=
  Yields.of_ok fun _ => ⟨_, _, rfl⟩

theorem declareGlobal (name : String) (ty : Ty) : Apart (Check.declareGlobal name ty) :=
  Yields.of_ok fun _ => ⟨_, _, rfl⟩

theorem openProcedure (parent : Nat) (named : List (String × Ty)) :
    Apart (Check.openProcedure parent named) := by
  refine (openScope .procedure parent).bind fun scope => .bind ?_ fun _ => .of_asks (.pure _)
  induction named with
  | nil => exact .of_asks (.pure _)
  | cons x more ih => exact (define scope x.1 x.2).bind fun _ => ih

theorem rootFor (ty : Ty) (scope : Nat) (position : Position) :
    Apart (Check.rootFor ty scope position) := by
  refine ite (fun c => ?_) (of_asks (.pure _))
  cases c.scopes.takeRootSlot? scope <;> trivial

theorem fillHole (expected : Ty) (operand : Typed.Expr) :
    Apart (Check.fillHole expected operand) := by
  unfold Check.fillHole
  split
  · exact (define _ _ _).bind fun _ => of_asks (.pure _)
  · exact of_asks (.pure _)

theorem closed : Closed fun _ _ x => Apart x where
  ask := of_asks
  bind := bind
  fill _ h := h.bind (fillHole _)
  root scope ty position := rootFor ty scope position
  openLet hf := (openScope _ _).bind fun inner => hf inner (define inner)
  procedure literal hbody := by
    rw [Procedure.check]
    refine (of_asks (.checkDistinct _ _)).bind fun _ =>
      (of_asks (.lift (writtenTypes_refused _).sincere)).bind fun written =>
        (openProcedure _ _).bind fun first => (hbody first).bind fun e =>
          (of_asks .get).bind fun c => ite ?_ (of_asks (.closeProcedure _ _ _ _ _ _))
    exact (openProcedure _ _).bind fun second => (hbody second).bind fun e =>
      of_asks (.closeProcedure _ _ _ _ _ _)

end Check.Apart

open Check (Apart Asks)

theorem Expr.check_apart (e : Expr) (scope : Nat) : Apart (e.check scope) :=
  Apart.closed.check e scope

namespace Item

theorem declare_apart (item : Item) : Apart item.declare := by
  cases item with
  | procedure name literal span =>
    exact (Apart.of_asks (.checkNew _ _)).bind fun _ =>
      (Apart.of_asks (.lift (signature_refused _ _ _))).bind fun ty => .declareGlobal name ty
  | constant name type? value span =>
    refine (Apart.of_asks (.checkNew _ _)).bind fun _ => ?_
    cases type? with
    | none => exact .of_asks (.fail _ trivial)
    | some t => exact (Apart.of_asks (.toTy t)).bind fun ty => .declareGlobal name ty
  | mutable name type? value span => exact .of_asks (.fail _ trivial)
  | entry body span => exact .of_asks (.pure _)

theorem checkConstant_apart (name : String) (type? : Option TypeExpr) (value : Expr)
    (span : Span) : Apart (checkConstant name type? value span) := by
  unfold checkConstant
  split
  · cases type? with
    | none => exact .of_asks (.fail _ trivial)
    | some t =>
      refine (Apart.of_asks (.toTy t)).bind fun ty => (Apart.of_asks .get).bind fun c =>
        (value.check_apart c.moduleScope).bind fun x =>
          .of_asks (.ite (fun _ => .pure _) fun hne => ?_)
      exact .fail _ ⟨_, _, fun he => hne (beq_iff_eq.mpr he), rfl, rfl⟩
  · exact .of_asks (.fail _ trivial)

theorem check_apart (item : Item) : Apart item.check := by
  cases item with
  | procedure name literal span =>
    exact (Apart.of_asks .get).bind fun c =>
      (Apart.closed.checkProcedure literal c.moduleScope).bind fun p => .of_asks (.pure _)
  | constant name type? value span =>
    exact (checkConstant_apart name type? value span).bind fun c => .of_asks (.pure _)
  | mutable name type? value span => exact .of_asks (.fail _ trivial)
  | entry body span =>
    exact .bind ((Apart.of_asks .get).bind fun c => (Apart.openScope _ _).bind fun scope =>
      (body.check_apart scope).bind fun x => .of_asks (Asks.get.bind fun c => .pure _))
        fun p => .of_asks (.pure _)

theorem declareAll_apart (items : List Item) : Apart (declareAll items) := by
  induction items with
  | nil => exact .of_asks (.pure _)
  | cons item more ih => exact item.declare_apart.bind fun _ => ih

theorem checkAll_apart (items : List Item) : Apart (checkAll items) := by
  induction items with
  | nil => exact .of_asks (.pure _)
  | cons item more ih =>
    exact item.check_apart.bind fun i => ih.bind fun is => .of_asks (.pure _)

end Item

theorem Module.tellsApart_of_check {m : Module} {d : Diagnostic} (h : m.check = .error d) :
    d.cause.TellsApart := by
  have hrun := ((Item.declareAll_apart m.items).bind fun _ => Item.checkAll_apart m.items)
    Context.initial
  dsimp only [Module.check] at h
  split at h
  · cases h
  · next e c he =>
    rw [he] at hrun
    cases h
    exact hrun

/-- A type without holes is read back from what is shown, to the end of the text; no two types look
alike, so the texts of two types that do not match differ wherever a check shows them. -/
theorem Ty.display_reads_back :
    (∀ t : Ty, t.settled = true → ∀ (name? : Option String) (file : String), ∃ ts a s',
      Token.scan t.display name? = .ok ts ∧
      (TypeExpr.read .standard .lowest (.ofTokens ts file)).Gives a s' ∧ s'.rest = [] ∧
      a.toTy = .ok t) ∧
    Function.Injective Ty.display ∧
    (∀ (e : Expr) (scope : Nat), (e.check scope).Apart) ∧
    ∀ (m : Module) (d : Diagnostic), m.check = .error d → d.cause.TellsApart :=
  ⟨fun _ h => read_display_of_settled h, display_injective, Expr.check_apart,
    fun _ _ => Module.tellsApart_of_check⟩

/-- A result that is a procedure type itself, with another one among the parameters; and a constant
whose value has not the type written. -/
theorem Ty.display_reads_back_nested :
    let t : Ty := .proc [.proc [.i32] .str, .bool] (.proc [] .unit)
    let m : Module := ⟨[.constant "k" (some (.name "bool" .nowhere))
      (.number 1 (.empty .nowhere)) (.empty .nowhere)], .empty .nowhere⟩
    let d : Diagnostic := ⟨.mismatch "bool" "i32", .nowhere⟩
    (t.settled = true ∧ ∃ ts a s',
      Token.scan "proc(proc(i32) -> str, bool) -> proc() -> unit" none = .ok ts ∧
      (TypeExpr.read .standard .lowest (.ofTokens ts "")).Gives a s' ∧ s'.rest = [] ∧
      a.toTy = .ok t) ∧
    m.check = .error d ∧ d.cause.TellsApart := by
  intro t m d
  have hcheck : m.check = .error d := by rfl
  have ht : t.settled = true := by decide
  have hread := display_reads_back.1 t ht none ""
  exact ⟨⟨ht, hread⟩, hcheck, display_reads_back.2.2.2 m d hcheck⟩

end RootedC
