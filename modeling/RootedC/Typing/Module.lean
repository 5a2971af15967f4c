import RootedC.Typing.Expr

/-!
Typing of modules. The types of all top-level names are taken from what is written before any body
is checked, so items can use each other in any order.
-/
namespace RootedC

namespace Item

open Check

/-- The types written for the parameters of a top-level procedure; each needs one. -/
def parameterTypes (name : String) (start : Position) :
    List Parameter → Except Diagnostic (List Ty)
  | [] => .ok []
  | p :: more =>
    match p.type? with
    | none => .error ⟨.missingSignature name, start⟩
    | some t => do
      let ty ← t.toTy
      let tys ← parameterTypes name start more
      return ty :: tys

/-- The type of a top-level procedure, as it is written. -/
def signature (name : String) (literal : Procedure Expr) (start : Position) :
    Except Diagnostic Ty := do
  let parameters ← parameterTypes name start literal.parameters
  match literal.result? with
  | none => .error ⟨.missingSignature name, start⟩
  | some t => return .proc parameters (← t.toTy)

/-- A new top-level name is neither a builtin nor declared before. -/
def checkNew (name : String) (start : Position) : Check Unit := do
  let c ← get
  if (Builtin.find? name).isSome then fail (.builtinRedefined name) start
  else if (c.globals.get? name).isSome then fail (.alreadyDeclared name) start
  else pure ()

def declare : Item → Check Unit
  | procedure name literal span => do
    checkNew name span.start
    let ty ← lift (signature name literal span.start)
    declareGlobal name ty
  | constant name type? _ span => do
    checkNew name span.start
    match type? with
    | none => fail (.missingSignature name) span.start
    | some t => do
      let ty ← lift t.toTy
      declareGlobal name ty
  | mutable _ _ _ span => fail .mutableGlobal span.start
  | entry _ _ => pure ()

/-- A literal, or a number with a minus sign: what a constant may be initialised with. -/
def isConstantValue : Expr → Bool
  | .number _ _ | .boolean _ _ | .text _ _ => true
  | .unary operator (.number _ _) _ => operator.kind = .dash
  | _ => false

def checkConstant (name : String) (type? : Option TypeExpr) (value : Expr) (span : Span) :
    Check Typed.Constant :=
  if isConstantValue value then
    match type? with
    | none => fail (.missingSignature name) span.start
    | some t => do
      let ty ← lift t.toTy
      let c ← get
      let value ← value.check c.moduleScope
      if ty == value.ty then return ⟨name, ty, value⟩
      else fail (.mismatch ty.display value.ty.display) value.span.start
  else fail .computedGlobal value.span.start

/-- The entry block, as a procedure without parameters. -/
def checkEntry (body : Expr) (span : Span) : Check (Typed.Procedure Typed.Expr) := do
  let c ← get
  let scope ← openScope .procedure c.moduleScope
  let body ← body.check scope
  let c ← get
  return ⟨scope, [], body.ty, body, c.scopes.rootCount scope, span⟩

def check : Item → Check Typed.Item
  | procedure name literal _ => do
    let c ← get
    return .procedure name (← literal.check c.moduleScope)
  | constant name type? value span => return .constant (← checkConstant name type? value span)
  | mutable _ _ _ span => fail .mutableGlobal span.start
  | entry body span => return .entry (← checkEntry body span)

def declareAll : List Item → Check Unit
  | [] => pure ()
  | item :: more => do
    item.declare
    declareAll more

def checkAll : List Item → Check (List Typed.Item)
  | [] => return []
  | item :: more => do
    let item ← item.check
    let more ← checkAll more
    return item :: more

end Item

namespace Module

/-- The typed module, or the first thing wrong with it. -/
def check (m : Module) : Except Diagnostic Typed.Module :=
  let run : Check (List Typed.Item) := do
    Item.declareAll m.items
    Item.checkAll m.items
  match run Context.initial with
  | .ok items _ => .ok (.ofItems items)
  | .error d _ => .error d

end Module

end RootedC
