import RootedC.Code.Module
import RootedC.Proofs.Semantics.Value

/-!
How generated code runs: instructions one after another on the locals of an activation, operands
evaluated when the instruction that holds them is reached, connectives from left to right and only
as far as needed. Roots and frames are there for the collector and do not change what is computed.
-/
namespace RootedC.Code

/-- The values of the locals of an activation. -/
abbrev Locals := Var → Option Value

namespace Locals

def empty : Locals := fun _ => none

def set (σ : Locals) (x : Var) (v? : Option Value) : Locals := fun y => if y = x then v? else σ y

@[simp] theorem set_self (σ : Locals) (x : Var) (v? : Option Value) : σ.set x v? x = v? := by
  simp [set]

theorem set_of_ne (σ : Locals) {x y : Var} (h : y ≠ x) (v? : Option Value) :
    σ.set x v? y = σ y := by
  simp [set, h]

def ofParameters : List Parameter → List Value → Locals
  | p :: ps, v :: vs => (ofParameters ps vs).set p.target (some v)
  | _, _ => empty

end Locals

/-- What code needs from around it. -/
structure World where
  text : Nat → Option Text
  constant : String → Run Value
  builtin : String → List Value → Run Value
  call : Name → List Value → Run Value

mutual

def Operand.eval (w : World) (σ : Locals) : Operand → Run Value
  | .builtin name => if name = "unit" then pure .unit else Run.stuck
  | .global name => w.constant name
  | .load source =>
    match σ source with
    | some v => pure v
    | none => Run.stuck
  | .callBuiltin name arguments | .callBuiltinWithFrame name arguments => do
    let vs ← evalAll w σ arguments
    w.builtin name vs
  | .callProcedure name arguments => do
    let vs ← evalAll w σ arguments
    w.call name vs
  | .integer value => pure (.integer value)
  | .boolean value => pure (.boolean value)
  | .text index =>
    match w.text index with
    | some s => pure (.text s.raw s.length)
    | none => Run.stuck
  | .negate operand => do
    let v ← operand.eval w σ
    Run.lift (UnaryOp.negate.apply v)
  | .not operand => do
    let v ← operand.eval w σ
    Run.lift (UnaryOp.not.apply v)
  | .binary op left right => do
    let v ← left.eval w σ
    op.connect v (right.eval w σ)

def evalAll (w : World) (σ : Locals) : List Operand → Run (List Value)
  | [] => pure []
  | x :: more => do
    let v ← x.eval w σ
    let vs ← evalAll w σ more
    return v :: vs

end

/-- Where a run stands after an instruction. -/
inductive Flow where
  | next (locals : Locals)
  | returned (value : Value)

mutual

def Instr.exec (w : World) : Instr → Locals → Run Flow
  | .rootTable _, σ | .clearRoot _, σ | .frame _, σ => return .next σ
  | .setRoot _ value, σ | .eval value, σ => do
    let _ ← value.eval w σ
    return .next σ
  | .define _ target none, σ => return .next (σ.set target none)
  | .define _ target (some value), σ | .store target value, σ => do
    let v ← value.eval w σ
    return .next (σ.set target (some v))
  | .ret value, σ => do
    let v ← value.eval w σ
    return .returned v
  | .branch condition thenBody elseBody, σ => do
    match ← condition.eval w σ with
    | .boolean true => execAll w thenBody σ
    | .boolean false => execAll w elseBody σ
    | _ => Run.stuck

def execAll (w : World) : List Instr → Locals → Run Flow
  | [], σ => return .next σ
  | i :: more, σ => do
    match ← i.exec w σ with
    | .next σ' => execAll w more σ'
    | .returned v => return .returned v

end

/-- Instructions that run to their end, from some locals and trace to others. -/
def Runs (w : World) (is : List Instr) (σ : Locals) (t : Trace) (σ' : Locals) (t' : Trace) : Prop :=
  execAll w is σ t = .ok (.next σ') t'

namespace Runs

variable {w : World} {σ σ' σ'' : Locals} {t t' t'' : Trace} {is js : List Instr}

theorem nil : Runs w [] σ t σ t := by
  rw [Runs, execAll, pure_run]

theorem of_exec {i : Instr} (h : i.exec w σ t = .ok (.next σ') t') : Runs w [i] σ t σ' t' := by
  simp only [Runs, execAll, bind_run, h, pure_run]

theorem execAll_append (h : Runs w is σ t σ' t') (js : List Instr) :
    execAll w (is ++ js) σ t = execAll w js σ' t' := by
  induction is generalizing σ t with
  | nil =>
    rw [Runs, execAll, pure_run] at h
    cases h
    rfl
  | cons i is ih =>
    simp only [Runs, execAll, List.cons_append, bind_run] at h ⊢
    cases hi : i.exec w σ t with
    | error s u => simp [hi] at h
    | ok flow u =>
      rw [hi] at h
      cases flow with
      | next σ₁ => exact ih h
      | returned v =>
        simp only [pure_run] at h
        cases h

theorem append (h : Runs w is σ t σ' t') (h' : Runs w js σ' t' σ'' t'') :
    Runs w (is ++ js) σ t σ'' t'' :=
  (h.execAll_append js).trans h'

theorem define {c : String} {target : Var} {x : Operand} {v : Value}
    (h : x.eval w σ t = .ok v t') :
    Runs w [.define c target (some x)] σ t (σ.set target (some v)) t' :=
  of_exec (by simp only [Instr.exec, bind_run, h, pure_run])

theorem undefine {c : String} {target : Var} :
    Runs w [.define c target none] σ t (σ.set target none) t :=
  of_exec (by simp only [Instr.exec, pure_run])

theorem store {target : Var} {x : Operand} {v : Value} (h : x.eval w σ t = .ok v t') :
    Runs w [.store target x] σ t (σ.set target (some v)) t' :=
  of_exec (by simp only [Instr.exec, bind_run, h, pure_run])

theorem eval {x : Operand} {v : Value} (h : x.eval w σ t = .ok v t') :
    Runs w [.eval x] σ t σ t' :=
  of_exec (by simp only [Instr.exec, bind_run, h, pure_run])

theorem setRoot {slot : Nat} {x : Operand} {v : Value} (h : x.eval w σ t = .ok v t') :
    Runs w [.setRoot slot x] σ t σ t' :=
  of_exec (by simp only [Instr.exec, bind_run, h, pure_run])

theorem branch {x : Operand} {b : Bool} (h : x.eval w σ t = .ok (.boolean b) t')
    (hb : Runs w (if b then is else js) σ t' σ' t'') : Runs w [.branch x is js] σ t σ' t'' := by
  refine of_exec ?_
  rw [Runs] at hb
  cases b with
  | true => simpa only [Instr.exec, bind_run, h, if_true] using hb
  | false => simpa only [Instr.exec, bind_run, h, Bool.false_eq_true, if_false] using hb

end Runs

/-- The value that a constant is initialised with. -/
def Operand.initial (text : Nat → Option Text) : Operand → Run Value
  | .integer value => pure (.integer value)
  | .boolean value => pure (.boolean value)
  | .text index =>
    match text index with
    | some s => pure (.text s.raw s.length)
    | none => Run.stuck
  | .negate (.integer value) => Run.lift (UnaryOp.negate.apply (.integer value))
  | _ => Run.stuck

namespace Module

def text? (m : Module) (index : Nat) : Option Text := m.strings[index]?

def constantValue (m : Module) (name : String) : Run Value :=
  match m.constants.find? (·.name = name) with
  | some c => c.value.initial m.text?
  | none => Run.stuck

def procedure? (m : Module) (name : Name) : Option Procedure :=
  m.procedures.find? (·.prototype.name = name)

def world (m : Module) (o : Oracle) (invoke : Name → List Value → Run Value) : World :=
  ⟨m.text?, m.constantValue, Run.builtin o, invoke⟩

/-- Runs a procedure on arguments, with calls nested at most so deep. -/
def run (m : Module) (o : Oracle) : Nat → Name → List Value → Run Value
  | 0, _, _ => throw .tooDeep
  | depth + 1, name, vs =>
    match m.procedure? name with
    | none => Run.stuck
    | some p =>
      if vs.length = p.prototype.parameters.length then do
        match ← execAll (m.world o (m.run o depth)) p.body
            (.ofParameters p.prototype.parameters vs) with
        | .returned v => return v
        | .next _ => Run.stuck
      else Run.stuck

/-- Runs the entry, whose value nobody reads. -/
def runEntry (m : Module) (o : Oracle) (depth : Nat) (e : Entry) : Run Unit := do
  let _ ← execAll (m.world o (m.run o depth)) e.body .empty

/-- A procedure on arguments gives a value and takes the trace from one state to another, whenever
calls may be nested deep enough. -/
def Evaluates (m : Module) (o : Oracle) (name : Name) (vs : List Value) (t : Trace) (v : Value)
    (t' : Trace) : Prop :=
  ∃ depth, ∀ d ≥ depth, m.run o d name vs t = .ok v t'

end Module

end RootedC.Code
