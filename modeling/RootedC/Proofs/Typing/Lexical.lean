import RootedC.Typing.Module

/-!
Typing with a stack of frames in place of the tree of scopes. A pass over an expression sees the
frames of its own activation and, of the scopes around it, only which names they bind. Scopes are
numbered as the tree numbers them, so both give the same typed expressions.
-/
namespace RootedC.Lexical

/-- A scope of the activation that is being checked. -/
structure Frame where
  scope : Nat
  bindings : Bindings Ty

namespace Frame

/-- The innermost binding of a name, `level` being the number of frames passed before. -/
def find (name : String) : Nat → List Frame → Option BindingSite
  | _, [] => none
  | level, f :: outer =>
    match f.bindings.get? name with
    | some ty => some ⟨ty, level, f.scope⟩
    | none => find name (level + 1) outer

def define (scope : Nat) (name : String) (ty : Ty) (f : Frame) : Frame :=
  if f.scope = scope then { f with bindings := f.bindings.bind name ty } else f

/-- The frame of a procedure with its parameters. -/
def ofParameters (scope : Nat) (parameters : List (String × Ty)) : Frame :=
  ⟨scope, parameters.foldl (fun bs p => bs.bind p.1 p.2) []⟩

end Frame

/-- The activation that is being checked: its scopes from the inside out, the root slots handed out
and the number of the next scope. -/
structure Activation where
  frames : List Frame
  slots : Nat
  next : Nat

/-- What an activation sees of the outside: the types of the top-level names, and of the scopes
around it their number and the names they bind. -/
structure Outside where
  globals : Bindings Ty
  depth : Nat
  binds : String → Bool

/-- The outside of a procedure that stands inside some frames. -/
def Outside.enter (w : Outside) (frames : List Frame) : Outside where
  globals := w.globals
  depth := w.depth + frames.length
  binds name := (Frame.find name 0 frames).isSome || w.binds name

abbrev Pass := StateT Activation Option

namespace Pass

def require (b : Bool) : Pass Unit := fun a => if b then some ((), a) else none

def openLet : Pass Nat := fun a =>
  some (a.next, { a with frames := ⟨a.next, []⟩ :: a.frames, next := a.next + 1 })

def closeLet : Pass Unit := fun a => some ((), { a with frames := a.frames.tail })

def define (scope : Nat) (name : String) (ty : Ty) : Pass Unit := fun a =>
  some ((), { a with frames := a.frames.map (Frame.define scope name ty) })

def rootFor (ty : Ty) : Pass (Option Nat) := fun a =>
  if ty.mayBeHeap then some (some a.slots, { a with slots := a.slots + 1 }) else some (none, a)

def lift {α : Type} (x : Except Diagnostic α) : Pass α := fun a => x.toOption.map (·, a)

def checkName (w : Outside) (name : String) (span : Span) : Pass Typed.Expr := fun a =>
  match Frame.find name 0 a.frames with
  | some r =>
    if r.ty.isProcedure then none
    else some (.name ⟨r.ty, none, span⟩ name r.level (.lexical r.scope), a)
  | none =>
    if w.binds name then none
    else
      match w.globals.get? name with
      | some ty =>
        if ty.isProcedure then none
        else some (.name ⟨ty, none, span⟩ name (w.depth + a.frames.length - 1) .global, a)
      | none => none

def checkCalleeName (w : Outside) (name : String) : Pass (Typed.Callee Typed.Expr × Ty) := fun a =>
  if (Frame.find name 0 a.frames).isSome || w.binds name then none
  else
    match w.globals.get? name with
    | some ty => if ty.isProcedure then some ((.global name, ty), a) else none
    | none => (Builtin.find? name).map fun b => ((.builtin name, b.ty), a)

def fillHole (expected : Ty) (operand : Typed.Expr) : Pass Typed.Expr :=
  match operand with
  | .name ⟨.hole, root?, span⟩ name level (.lexical definedIn) => do
    define definedIn name expected
    return .name ⟨expected, root?, span⟩ name level (.lexical definedIn)
  | _ => pure operand

end Pass

/-- The types that parameters have after a pass over the body. -/
def foundTypes (frames : List Frame) (named : List (String × Ty)) : List Ty :=
  named.map fun p => ((Frame.find p.1 0 frames).map BindingSite.ty).getD p.2

/-- The last checks of a procedure, whose body was checked in an activation. -/
def closeProcedure (parameters : List Parameter) (tys : List Ty) (result? : Option TypeExpr)
    (scope : Nat) (body : Typed.Expr) (a : Activation) (span : Span) :
    Option (Typed.Procedure Typed.Expr × Nat) :=
  if (parameters.zip tys).any (fun p => p.2.isHole) then none
  else if result?.all (fun t => t.toTy.toOption.any (· == body.ty)) then
    some (⟨scope, (parameters.map (·.name)).zip tys, body.ty, body, a.slots, span⟩, a.next)
  else none

open Pass

mutual

def check (w : Outside) : Expr → Pass Typed.Expr
  | .number value span => pure (.integer ⟨.i32, none, span⟩ value)
  | .text raw span => pure (.text ⟨.str, none, span⟩ raw (Text.decodedLength raw))
  | .boolean value span => pure (.boolean ⟨.bool, none, span⟩ value)
  | .unit span => pure (.unit ⟨.unit, none, span⟩)
  | .name name span => checkName w name span
  | .unary operator operand span =>
    match UnaryOp.ofKind? operator.kind with
    | none => failure
    | some op => do
      let operand ← fillHole op.ty (← check w operand)
      require (operand.ty == op.ty)
      return .unary ⟨op.ty, none, span⟩ op operand
  | .binary left operator right span =>
    match BinaryOp.ofKind? operator.kind with
    | none => failure
    | some op => do
      let left ← check w left
      let right ← check w right
      require (left.ty.agrees right.ty)
      require ((left.ty.settle right.ty).isHole || op.worksOn (left.ty.settle right.ty))
      return .binary ⟨op.resultTy (left.ty.settle right.ty), none, span⟩ op left right
  | .call callee arguments span => do
    let c ← match callee with
      | .procedure literal => fun a =>
        (checkProcedure (w.enter a.frames) a.next literal).map fun r =>
          ((.literal r.1, r.1.ty), { a with next := r.2 })
      | .name name _ => checkCalleeName w name
      | _ => failure
    match c.2 with
    | .proc parameters result => do
      require (arguments.length == parameters.length)
      let arguments ← checkArguments w arguments parameters
      let root? ← rootFor result
      return .call ⟨result, root?, span⟩ c.1 arguments
    | _ => failure
  | .branch condition thenArm elseArm? span => do
    let condition ← check w condition
    require (Ty.bool.agrees condition.ty)
    let thenArm ← check w thenArm
    let elseArm ← match elseArm? with
      | some elseArm => check w elseArm
      | none => pure (.unit ⟨.unit, none, .empty span.stop⟩)
    require (thenArm.ty.agrees elseArm.ty)
    return .branch ⟨thenArm.ty.settle elseArm.ty, none, span⟩ condition thenArm elseArm
  | .letIn declarations body span => do
    let inner ← openLet
    let declarations ← checkDeclarations w inner declarations
    let body ← check w body
    let root? ← rootFor body.ty
    closeLet
    return .letIn ⟨body.ty, root?, span⟩ inner declarations body
  | .procedure _ => failure
  | .block body span => do
    let body ← checkAll w body
    return .block ⟨(body.getLast?.map (·.ty)).getD .unit, none, span⟩ body

def checkAll (w : Outside) : List Expr → Pass (List Typed.Expr)
  | [] => pure []
  | e :: more => do
    let e ← check w e
    let more ← checkAll w more
    return e :: more

def checkArguments (w : Outside) : List Expr → List Ty → Pass (List Typed.Expr)
  | e :: more, expected :: tys => do
    let e ← check w e
    require (expected.agrees e.ty)
    let more ← checkArguments w more tys
    return e :: more
  | _, _ => pure []

def checkDeclarations (w : Outside) (scope : Nat) :
    List (Declaration Expr) → Pass (List (String × Typed.Expr))
  | [] => pure []
  | ⟨name, type?, value, _⟩ :: more => do
    let value ← check w value
    require (type?.all fun t => t.toTy.toOption.any (·.agrees value.ty))
    define scope name value.ty
    let more ← checkDeclarations w scope more
    return (name, value) :: more

/-- A procedure whose scope, or the first of its two scopes, is the next one. -/
def checkProcedure (w : Outside) (next : Nat) :
    Procedure Expr → Option (Typed.Procedure Typed.Expr × Nat)
  | ⟨parameters, result?, body, span⟩ =>
    if (parameters.map (·.name)).Nodup then do
      let written ← (Check.writtenTypes parameters).toOption
      let named := (parameters.map (·.name)).zip written
      let first ← check w body ⟨[.ofParameters next named], 0, next + 1⟩
      let found := foundTypes first.2.frames named
      if Check.anyFilled written found then do
        let again := (parameters.map (·.name)).zip found
        let second ← check w body ⟨[.ofParameters first.2.next again], 0, first.2.next + 1⟩
        closeProcedure parameters found result? first.2.next second.1 second.2 span
      else closeProcedure parameters written result? next first.1 first.2 span
    else none

end

end RootedC.Lexical
