import RootedC.Proofs.Outcome
import RootedC.Typing.Operator

/-!
Values of running programs, what operators do to them and how a run goes on. Runs tell of the calls
of builtins they make in a trace; an oracle that knows the calls made before answers them.
-/
namespace RootedC

inductive Value where
  | integer (value : Int)
  | boolean (value : Bool)
  /-- A string by its text as written and its length once escapes are decoded. -/
  | text (raw : String) (length : Nat)
  | unit
  deriving DecidableEq, Repr

/-- One call of a builtin. -/
structure Event where
  builtin : String
  arguments : List Value
  deriving DecidableEq, Repr

abbrev Trace := List Event

/-- Why a run gives no value. -/
inductive Stop where
  /-- Division by zero or a result that does not fit into 32 bits. -/
  | fault
  /-- A value of a wrong kind, a name without a value, a wrong number of arguments. -/
  | stuck
  /-- Calls are nested deeper than allowed. -/
  | tooDeep
  deriving DecidableEq, Repr

abbrev Run := EStateM Stop Trace

/-- What a builtin answers, given the calls made before. -/
abbrev Oracle := Trace → String → List Value → Value

namespace Run

def lift {α : Type} (x : Except Stop α) : Run α := fun t =>
  match x with
  | .ok a => .ok a t
  | .error s => .error s t

def stuck {α : Type} : Run α := throw .stuck

def builtin (o : Oracle) (name : String) (arguments : List Value) : Run Value := fun t =>
  .ok (o t name arguments) (t ++ [⟨name, arguments⟩])

/-- A run that ends wherever another one does, in the same way. -/
def Extends {α : Type} (y x : Run α) : Prop := ∀ t a t', x t = .ok a t' → y t = .ok a t'

namespace Extends

theorem refl {α : Type} (x : Run α) : Extends x x := fun _ _ _ h => h

theorem bind {α β : Type} {x y : Run α} {f g : α → Run β} (h : Extends y x)
    (hf : ∀ a, Extends (g a) (f a)) : Extends (y >>= g) (x >>= f) := by
  intro t b t' hx
  obtain ⟨a, u, ha, hb⟩ := bind_eq_ok.mp hx
  exact bind_eq_ok.mpr ⟨a, u, h t a u ha, hf a u b t' hb⟩

end Extends

theorem lift_eq_ok {α : Type} {x : Except Stop α} {a : α} {t t' : Trace} :
    lift x t = .ok a t' ↔ x = .ok a ∧ t' = t := by
  cases x <;> simp [lift, eq_comm]

end Run

/-- A result that has to fit into 32 bits. -/
def Value.ofInt (n : Int) : Except Stop Value :=
  if -2147483648 ≤ n ∧ n ≤ 2147483647 then .ok (.integer n) else .error .fault

def UnaryOp.apply : UnaryOp → Value → Except Stop Value
  | negate, .integer n => Value.ofInt (-n)
  | not, .boolean b => .ok (.boolean !b)
  | _, _ => .error .stuck

namespace BinaryOp

/-- Division truncates; the quotient has to fit also where only the remainder is wanted. -/
def applyToInts : BinaryOp → Int → Int → Except Stop Value
  | add, a, b => Value.ofInt (a + b)
  | sub, a, b => Value.ofInt (a - b)
  | mul, a, b => Value.ofInt (a * b)
  | div, a, b => if b = 0 then .error .fault else Value.ofInt (a.tdiv b)
  | mod, a, b =>
    if b = 0 then .error .fault
    else do
      let _ ← Value.ofInt (a.tdiv b)
      return .integer (a.tmod b)
  | eq, a, b => .ok (.boolean (a = b))
  | ne, a, b => .ok (.boolean (a ≠ b))
  | lt, a, b => .ok (.boolean (a < b))
  | le, a, b => .ok (.boolean (a ≤ b))
  | gt, a, b => .ok (.boolean (a > b))
  | ge, a, b => .ok (.boolean (a ≥ b))
  | and, _, _ | or, _, _ => .error .stuck

def applyToBools : BinaryOp → Bool → Bool → Except Stop Value
  | eq, a, b => .ok (.boolean (a = b))
  | ne, a, b => .ok (.boolean (a ≠ b))
  | and, a, b => .ok (.boolean (a && b))
  | or, a, b => .ok (.boolean (a || b))
  | _, _, _ => .error .stuck

def apply (op : BinaryOp) : Value → Value → Except Stop Value
  | .integer a, .integer b => op.applyToInts a b
  | .boolean a, .boolean b => op.applyToBools a b
  | _, _ => .error .stuck

/-- The result, where the left operand alone decides it. -/
def decided? : BinaryOp → Value → Option Value
  | and, .boolean false => some (.boolean false)
  | or, .boolean true => some (.boolean true)
  | _, _ => none

/-- The operator on a left operand and a right one that is evaluated only if it is needed. -/
def connect (op : BinaryOp) (left : Value) (right : Run Value) : Run Value :=
  match op.decided? left with
  | some v => pure v
  | none => do
    let v ← right
    Run.lift (op.apply left v)

theorem connect_extends (op : BinaryOp) (v : Value) {x y : Run Value} (h : Run.Extends y x) :
    Run.Extends (op.connect v y) (op.connect v x) := by
  unfold connect
  cases op.decided? v with
  | some u => exact .refl _
  | none => exact h.bind fun _ => .refl _

end BinaryOp

end RootedC
