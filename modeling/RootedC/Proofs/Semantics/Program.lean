import RootedC.Proofs.Semantics.Value
import RootedC.Typing.Tree

/-!
How typed programs run: arguments by value and from left to right, declarations of a let in order,
and of branches and connectives only the side that is needed. A name means its innermost binding.
-/
namespace RootedC.Typed

/-- Names with their values, the innermost binding first. -/
abbrev Env := List (String × Value)

/-- What an expression needs from around it: constants, and how a callee is called. -/
structure World where
  constant : String → Run Value
  call : Callee Expr → List Value → Run Value

mutual

def Expr.eval (w : World) (env : Env) : Expr → Run Value
  | .integer _ value => pure (.integer value)
  | .boolean _ value => pure (.boolean value)
  | .text _ raw length => pure (.text raw length)
  | .unit _ => pure .unit
  | .name _ name _ origin =>
    match origin with
    | .lexical _ =>
      match env.lookup name with
      | some v => pure v
      | none => Run.stuck
    | .global => w.constant name
    | .builtin => Run.stuck
  | .unary _ op operand => do
    let v ← operand.eval w env
    Run.lift (op.apply v)
  | .binary _ op left right => do
    let v ← left.eval w env
    op.connect v (right.eval w env)
  | .call _ callee arguments => do
    let vs ← evalAll w env arguments
    w.call callee vs
  | .branch _ condition thenArm elseArm => do
    match ← condition.eval w env with
    | .boolean true => thenArm.eval w env
    | .boolean false => elseArm.eval w env
    | _ => Run.stuck
  | .letIn _ _ declarations body => do
    let inner ← evalDeclarations w env declarations
    body.eval w inner
  | .block _ body => evalBody w env body

/-- The values of expressions, from left to right. -/
def evalAll (w : World) (env : Env) : List Expr → Run (List Value)
  | [] => pure []
  | e :: more => do
    let v ← e.eval w env
    let vs ← evalAll w env more
    return v :: vs

/-- The value of the last expression, after the others. -/
def evalBody (w : World) (env : Env) : List Expr → Run Value
  | [] => pure .unit
  | [e] => e.eval w env
  | e :: next :: more => do
    let _ ← e.eval w env
    evalBody w env (next :: more)

/-- The bindings that declarations make, each seeing those before it. -/
def evalDeclarations (w : World) (env : Env) : List (String × Expr) → Run Env
  | [] => pure env
  | (name, value) :: more => do
    let v ← value.eval w env
    evalDeclarations w ((name, v) :: env) more

end

/-- Surroundings that answer every call that others answer, and in the same way. -/
structure World.Extends (w' w : World) : Prop where
  constant : ∀ name, Run.Extends (w'.constant name) (w.constant name)
  call : ∀ c vs, Run.Extends (w'.call c vs) (w.call c vs)

section Extended
variable {w w' : World}

mutual

theorem Expr.eval_extends (h : w'.Extends w) : ∀ (e : Expr) (env : Env),
    Run.Extends (e.eval w' env) (e.eval w env)
  | .integer _ _, env => .refl _
  | .boolean _ _, env => .refl _
  | .text _ _ _, env => .refl _
  | .unit _, env => .refl _
  | .name _ x _ origin, env => by
    cases origin with
    | lexical scope => exact .refl _
    | global => exact h.constant x
    | builtin => exact .refl _
  | .unary _ op operand, env => by
    rw [Expr.eval, Expr.eval]
    exact (operand.eval_extends h env).bind fun _ => .refl _
  | .binary _ op left right, env => by
    rw [Expr.eval, Expr.eval]
    exact (left.eval_extends h env).bind fun v =>
      op.connect_extends v (right.eval_extends h env)
  | .call _ callee arguments, env => by
    rw [Expr.eval, Expr.eval]
    exact (evalAll_extends h arguments env).bind fun vs => h.call callee vs
  | .branch _ condition thenArm elseArm, env => by
    rw [Expr.eval, Expr.eval]
    refine (condition.eval_extends h env).bind fun v => ?_
    split
    · exact thenArm.eval_extends h env
    · exact elseArm.eval_extends h env
    · exact .refl _
  | .letIn _ _ declarations body, env => by
    rw [Expr.eval, Expr.eval]
    exact (evalDeclarations_extends h declarations env).bind fun inner =>
      body.eval_extends h inner
  | .block _ body, env => by
    rw [Expr.eval, Expr.eval]
    exact evalBody_extends h body env

theorem evalAll_extends (h : w'.Extends w) : ∀ (es : List Expr) (env : Env),
    Run.Extends (evalAll w' env es) (evalAll w env es)
  | [], env => .refl _
  | e :: more, env => by
    rw [evalAll, evalAll]
    exact (e.eval_extends h env).bind fun _ =>
      (evalAll_extends h more env).bind fun _ => .refl _

theorem evalBody_extends (h : w'.Extends w) : ∀ (es : List Expr) (env : Env),
    Run.Extends (evalBody w' env es) (evalBody w env es)
  | [], env => .refl _
  | [e], env => by
    rw [evalBody, evalBody]
    exact e.eval_extends h env
  | e :: next :: more, env => by
    rw [evalBody, evalBody]
    exact (e.eval_extends h env).bind fun _ => evalBody_extends h (next :: more) env

theorem evalDeclarations_extends (h : w'.Extends w) :
    ∀ (ds : List (String × Expr)) (env : Env),
      Run.Extends (evalDeclarations w' env ds) (evalDeclarations w env ds)
  | [], env => .refl _
  | (_, value) :: more, env => by
    rw [evalDeclarations, evalDeclarations]
    exact (value.eval_extends h env).bind fun _ => evalDeclarations_extends h more _

end

end Extended

/-- The value that a constant is initialised with. -/
def Expr.initial : Expr → Run Value
  | .integer _ value => pure (.integer value)
  | .boolean _ value => pure (.boolean value)
  | .text _ raw length => pure (.text raw length)
  | .unary _ op (.integer _ value) => Run.lift (op.apply (.integer value))
  | _ => Run.stuck

/-- An evaluation that takes place in a run: calls may still be nested so deep, and the trace tells
what came before. -/
structure Visit where
  depth : Nat
  env : Env
  expr : Expr
  trace : Trace

namespace Module

def constantValue (m : Module) (name : String) : Run Value :=
  match m.constants.find? (·.name = name) with
  | some c => c.value.initial
  | none => Run.stuck

/-- How a callee is called, given how a procedure is run. -/
def callee (m : Module) (o : Oracle) (invoke : Procedure Expr → List Value → Run Value) :
    Callee Expr → List Value → Run Value
  | .builtin name, vs => Run.builtin o name vs
  | .global name, vs =>
    match m.procedures.lookup name with
    | some p => invoke p vs
    | none => Run.stuck
  | .literal p, vs => invoke p vs

/-- Runs a procedure on arguments, with calls nested at most so deep. -/
def run (m : Module) (o : Oracle) : Nat → Procedure Expr → List Value → Run Value
  | 0, _, _ => throw .tooDeep
  | depth + 1, p, vs =>
    if vs.length = p.parameters.length then
      p.body.eval ⟨m.constantValue, m.callee o (m.run o depth)⟩ ((p.parameters.map (·.1)).zip vs)
    else Run.stuck

/-- A procedure on arguments gives a value and takes the trace from one state to another. -/
def Evaluates (m : Module) (o : Oracle) (p : Procedure Expr) (vs : List Value) (t : Trace)
    (v : Value) (t' : Trace) : Prop :=
  ∃ depth, m.run o depth p vs t = .ok v t'

/-- Where calls may be nested deeper, a run that ended ends as before. -/
theorem run_extends (m : Module) (o : Oracle) {depth depth' : Nat} (h : depth ≤ depth')
    (p : Procedure Expr) (vs : List Value) :
    Run.Extends (m.run o depth' p vs) (m.run o depth p vs) := by
  induction depth generalizing depth' p vs with
  | zero =>
    intro t v t' hrun
    cases hrun
  | succ depth ih =>
    obtain ⟨deeper, rfl⟩ : ∃ deeper, depth' = deeper + 1 := ⟨depth' - 1, by omega⟩
    rw [run, run]
    split
    · apply Expr.eval_extends
      refine ⟨fun _ => .refl _, ?_⟩
      intro c ws
      cases c with
      | builtin name => exact .refl _
      | global name =>
        simp only [callee]
        cases m.procedures.lookup name with
        | none => exact .refl _
        | some q => exact ih (Nat.le_of_succ_le_succ h) q ws
      | literal q => exact ih (Nat.le_of_succ_le_succ h) q ws
    · exact .refl _

/-- Surroundings of the code of a module with calls nested at most so deep. -/
def world (m : Module) (o : Oracle) (depth : Nat) : World :=
  ⟨m.constantValue, m.callee o (m.run o depth)⟩

/-- The evaluations that an evaluation starts itself, in order: operands, arguments, the body of a
procedure that is called, and of connectives and branches what is needed. -/
inductive Enters (m : Module) (o : Oracle) : Visit → Visit → Prop
  | operand {depth : Nat} {env : Env} {i : Info} {op : UnaryOp} {x : Expr} {t : Trace} :
    Enters m o ⟨depth, env, .unary i op x, t⟩ ⟨depth, env, x, t⟩
  | left {depth : Nat} {env : Env} {i : Info} {op : BinaryOp} {x y : Expr} {t : Trace} :
    Enters m o ⟨depth, env, .binary i op x y, t⟩ ⟨depth, env, x, t⟩
  | right {depth : Nat} {env : Env} {i : Info} {op : BinaryOp} {x y : Expr} {t t' : Trace}
    {v : Value} (hx : x.eval (m.world o depth) env t = .ok v t') (hv : op.decided? v = none) :
    Enters m o ⟨depth, env, .binary i op x y, t⟩ ⟨depth, env, y, t'⟩
  | argument {depth : Nat} {env : Env} {i : Info} {c : Callee Expr} {before after : List Expr}
    {x : Expr} {t t' : Trace} {vs : List Value}
    (hb : evalAll (m.world o depth) env before t = .ok vs t') :
    Enters m o ⟨depth, env, .call i c (before ++ x :: after), t⟩ ⟨depth, env, x, t'⟩
  | literal {depth : Nat} {env : Env} {i : Info} {P : Procedure Expr} {es : List Expr}
    {t t' : Trace} {vs : List Value}
    (he : evalAll (m.world o (depth + 1)) env es t = .ok vs t')
    (hl : vs.length = P.parameters.length) :
    Enters m o ⟨depth + 1, env, .call i (.literal P) es, t⟩
      ⟨depth, (P.parameters.map (·.1)).zip vs, P.body, t'⟩
  | global {depth : Nat} {env : Env} {i : Info} {name : String} {P : Procedure Expr}
    {es : List Expr} {t t' : Trace} {vs : List Value}
    (he : evalAll (m.world o (depth + 1)) env es t = .ok vs t')
    (hP : m.procedures.lookup name = some P) (hl : vs.length = P.parameters.length) :
    Enters m o ⟨depth + 1, env, .call i (.global name) es, t⟩
      ⟨depth, (P.parameters.map (·.1)).zip vs, P.body, t'⟩
  | condition {depth : Nat} {env : Env} {i : Info} {c x y : Expr} {t : Trace} :
    Enters m o ⟨depth, env, .branch i c x y, t⟩ ⟨depth, env, c, t⟩
  | thenArm {depth : Nat} {env : Env} {i : Info} {c x y : Expr} {t t' : Trace}
    (hc : c.eval (m.world o depth) env t = .ok (.boolean true) t') :
    Enters m o ⟨depth, env, .branch i c x y, t⟩ ⟨depth, env, x, t'⟩
  | elseArm {depth : Nat} {env : Env} {i : Info} {c x y : Expr} {t t' : Trace}
    (hc : c.eval (m.world o depth) env t = .ok (.boolean false) t') :
    Enters m o ⟨depth, env, .branch i c x y, t⟩ ⟨depth, env, y, t'⟩
  | declared {depth : Nat} {env inner : Env} {i : Info} {scope : Nat}
    {before after : List (String × Expr)} {name : String} {x body : Expr} {t t' : Trace}
    (hb : evalDeclarations (m.world o depth) env before t = .ok inner t') :
    Enters m o ⟨depth, env, .letIn i scope (before ++ (name, x) :: after) body, t⟩
      ⟨depth, inner, x, t'⟩
  | letBody {depth : Nat} {env inner : Env} {i : Info} {scope : Nat} {ds : List (String × Expr)}
    {body : Expr} {t t' : Trace}
    (hd : evalDeclarations (m.world o depth) env ds t = .ok inner t') :
    Enters m o ⟨depth, env, .letIn i scope ds body, t⟩ ⟨depth, inner, body, t'⟩
  | item {depth : Nat} {env : Env} {i : Info} {before after : List Expr} {x : Expr}
    {t t' : Trace} {vs : List Value} (hb : evalAll (m.world o depth) env before t = .ok vs t') :
    Enters m o ⟨depth, env, .block i (before ++ x :: after), t⟩ ⟨depth, env, x, t'⟩

end Module

end RootedC.Typed
