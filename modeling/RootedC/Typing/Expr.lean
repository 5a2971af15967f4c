import RootedC.Text.Decoded
import RootedC.Typing.Context

/-!
Typing of expressions. A parameter without a written type starts as a hole; the operand position of
a unary operator fills it. A procedure whose body filled a hole is checked once more with the types
found, so that every use of the parameter sees them.
-/
namespace RootedC

namespace Check

def checkName (scope : Nat) (name : String) (span : Span) : Check Typed.Expr := do
  let c ← get
  match c.find? scope name with
  | none => fail (.undeclared name) span.start
  | some (ty, level, origin) => do
    match origin with
    | .lexical definedIn => sameActivation scope definedIn span.start
    | _ => pure ()
    if ty.isProcedure then fail .firstClassProcedure span.start
    else return .name ⟨ty, none, span⟩ name level origin

/-- A name in the place of a callee. Only top-level procedures and builtins can be called. -/
def checkCalleeName (scope : Nat) (name : String) (span : Span) :
    Check (Typed.Callee Typed.Expr × Ty) := do
  let c ← get
  match c.scopes.find? scope name with
  | some r => do
    sameActivation scope r.scope span.start
    if r.ty.isProcedure then fail .firstClassProcedure span.start
    else fail (.notCallable r.ty.display) span.start
  | none =>
    match c.globals.get? name with
    | some ty =>
      if ty.isProcedure then return (.global name, ty)
      else fail (.notCallable ty.display) span.start
    | none =>
      match Builtin.find? name with
      | some b => return (.builtin name, b.ty)
      | none => fail (.undeclared name) span.start

/-- Something that is neither a name nor a literal cannot be called. -/
def refuseCallee {α : Type} (callee : Typed.Expr) : Check α :=
  if callee.ty.isProcedure then fail .firstClassProcedure callee.span.start
  else fail (.notCallable callee.ty.display) callee.span.start

/-- A lexical name that is still a hole takes the type its operator wants. -/
def fillHole (expected : Ty) (operand : Typed.Expr) : Check Typed.Expr :=
  match operand with
  | .name ⟨.hole, root?, span⟩ name level (.lexical definedIn) => do
    define definedIn name expected
    return .name ⟨expected, root?, span⟩ name level (.lexical definedIn)
  | _ => pure operand

def checkCount (arguments : List Expr) (expected : Nat) (stop : Position) : Check Unit :=
  match arguments[expected]? with
  | some extra => fail (.tooManyArguments expected arguments.length) extra.span.start
  | none =>
    if arguments.length < expected then
      fail (.tooFewArguments expected arguments.length) stop
    else pure ()

/-- The parameter list has no name twice; `seen` are the names before it. -/
def checkDistinct (seen : List String) : List Parameter → Check Unit
  | [] => pure ()
  | p :: more =>
    if p.name ∈ seen then fail (.repeatedParameter p.name) p.span.start
    else checkDistinct (p.name :: seen) more

/-- The types of parameters, a hole where none is written. -/
def writtenTypes : List Parameter → Except Diagnostic (List Ty)
  | [] => .ok []
  | p :: more => do
    let ty ← match p.type? with
      | some t => t.toTy
      | none => .ok .hole
    let tys ← writtenTypes more
    return ty :: tys

/-- The types that parameters have after a check of the body. -/
def foundTypes (c : Context) (scope : Nat) : List (String × Ty) → List Ty
  | [] => []
  | (name, ty) :: more =>
    (c.scopes.lookup? scope name).getD ty :: foundTypes c scope more

/-- Whether some hole was filled. -/
def anyFilled (before after : List Ty) : Bool :=
  (before.zip after).any fun (b, a) => b.isHole && !a.isHole

def checkNoHole : List (Parameter × Ty) → Check Unit
  | [] => pure ()
  | (p, ty) :: more =>
    if ty.isHole then fail (.ambiguousParameter p.name) p.span.start else checkNoHole more

/-- Opens the scope of a procedure with its parameters. -/
def openProcedure (parent : Nat) (parameters : List (String × Ty)) : Check Nat := do
  let scope ← openScope .procedure parent
  defineAll scope parameters
  return scope

/-- The last checks of a procedure: no hole is left and the result has the type written. -/
def closeProcedure (parameters : List Parameter) (tys : List Ty) (result? : Option TypeExpr)
    (scope : Nat) (body : Typed.Expr) (span : Span) : Check (Typed.Procedure Typed.Expr) := do
  checkNoHole (parameters.zip tys)
  match result? with
  | some t => do
    let declared ← lift t.toTy
    if declared == body.ty then pure ()
    else fail (.mismatch declared.display body.ty.display) t.position
  | none => pure ()
  let c ← get
  return ⟨scope, (parameters.map (·.name)).zip tys, body.ty, body, c.scopes.rootCount scope,
    span⟩

end Check

open Check

mutual

def Expr.check (scope : Nat) : Expr → Check Typed.Expr
  | .number value span => return .integer ⟨.i32, none, span⟩ value
  | .text raw span => return .text ⟨.str, none, span⟩ raw (Text.decodedLength raw)
  | .boolean value span => return .boolean ⟨.bool, none, span⟩ value
  | .unit span => return .unit ⟨.unit, none, span⟩
  | .name name span => checkName scope name span
  | .unary operator operand span =>
    match UnaryOp.ofKind? operator.kind with
    | none => fail (.unexpected operator.value) span.start
    | some op => do
      let operand ← fillHole op.ty (← operand.check scope)
      if operand.ty == op.ty then return .unary ⟨op.ty, none, span⟩ op operand
      else fail (.badOperand op.symbol operand.ty.display) span.start
  | .binary left operator right span =>
    match BinaryOp.ofKind? operator.kind with
    | none => fail (.unexpected operator.value) operator.span.start
    | some op => do
      let left ← left.check scope
      let right ← right.check scope
      expectTy left.ty right.ty right.span.start
      let ty := left.ty.settle right.ty
      if ty.isHole || op.worksOn ty then
        return .binary ⟨op.resultTy ty, none, span⟩ op left right
      else fail (.badOperands op.symbol ty.display) operator.span.start
  | .call callee arguments span => do
    let (callee, signature) ← match callee with
      | .procedure literal => do
        let p ← Procedure.check scope literal
        pure (Typed.Callee.literal p, p.ty)
      | .name name nameSpan => checkCalleeName scope name nameSpan
      | other => do refuseCallee (← other.check scope)
    match signature with
    | .proc parameters result => do
      checkCount arguments parameters.length span.stop
      let arguments ← checkArguments scope arguments parameters
      let root? ← rootFor result scope span.start
      return .call ⟨result, root?, span⟩ callee arguments
    | other => fail (.notCallable other.display) span.start
  | .branch condition thenArm elseArm? span => do
    let condition ← condition.check scope
    expectTy .bool condition.ty condition.span.start
    let thenArm ← thenArm.check scope
    let elseArm ← match elseArm? with
      | some elseArm => elseArm.check scope
      | none => pure (.unit ⟨.unit, none, .empty span.stop⟩)
    expectTy thenArm.ty elseArm.ty elseArm.span.start
    return .branch ⟨thenArm.ty.settle elseArm.ty, none, span⟩ condition thenArm elseArm
  | .letIn declarations body span => do
    let inner ← openScope .letIn scope
    let declarations ← checkDeclarations inner declarations
    let body ← body.check inner
    let root? ← rootFor body.ty inner span.start
    return .letIn ⟨body.ty, root?, span⟩ inner declarations body
  | .procedure literal => fail .firstClassProcedure literal.span.start
  | .block body span => do
    let body ← checkAll scope body
    return .block ⟨(body.getLast?.map (·.ty)).getD .unit, none, span⟩ body

def checkAll (scope : Nat) : List Expr → Check (List Typed.Expr)
  | [] => return []
  | e :: more => do
    let e ← e.check scope
    let more ← checkAll scope more
    return e :: more

/-- Arguments, as many as there are parameter types. -/
def checkArguments (scope : Nat) : List Expr → List Ty → Check (List Typed.Expr)
  | e :: more, expected :: tys => do
    let e ← e.check scope
    if expected.agrees e.ty then pure ()
    else fail (.argumentMismatch expected.display e.ty.display) e.span.start
    let more ← checkArguments scope more tys
    return e :: more
  | _, _ => return []

/-- Declarations of a let, each of which sees those before it. -/
def checkDeclarations (scope : Nat) :
    List (Declaration Expr) → Check (List (String × Typed.Expr))
  | [] => return []
  | ⟨name, type?, value, span⟩ :: more => do
    let value ← value.check scope
    match type? with
    | some t => do
      let declared ← lift t.toTy
      expectTy declared value.ty span.start
    | none => pure ()
    define scope name value.ty
    let more ← checkDeclarations scope more
    return (name, value) :: more

/-- A procedure in a scope of its own. -/
def Procedure.check (parent : Nat) : Procedure Expr → Check (Typed.Procedure Typed.Expr)
  | ⟨parameters, result?, body, span⟩ => do
    checkDistinct [] parameters
    let written ← lift (writtenTypes parameters)
    let named := (parameters.map (·.name)).zip written
    let first ← openProcedure parent named
    let firstBody ← body.check first
    let found := foundTypes (← get) first named
    if anyFilled written found then do
      let second ← openProcedure parent ((parameters.map (·.name)).zip found)
      let secondBody ← body.check second
      closeProcedure parameters found result? second secondBody span
    else closeProcedure parameters written result? first firstBody span

end

end RootedC
