import RootedC.Code.Builder
import RootedC.Typing.Builtin

/-!
From typed expressions to instructions. What has to run before a value can be read (calls, branches,
lets) becomes instructions; the value itself stays an operand.
-/
namespace RootedC

/-- The instructions of an expression and the operand that is its value after them. -/
structure Lowered where
  code : List Code.Instr
  value : Code.Operand

namespace Lower

/-- The call of a builtin, with the frame if the builtin takes it. -/
def builtinCall (name : String) (arguments : List Code.Operand) : Code.Operand :=
  if (Builtin.find? name).any (·.takesFrame) then .callBuiltinWithFrame name arguments
  else .callBuiltin name arguments

def nameOperand (name : String) : Typed.Origin → Code.Operand
  | .lexical scope => .load (.named scope name)
  | .global => .global name
  | .builtin => .builtin name

/-- The root table, where there is one, and the frame. -/
def prologue (size : Nat) : List Code.Instr :=
  (if 0 < size then [.rootTable size] else []) ++ [.frame size]

/-- Keeps a local alive in a root slot, where it has one. -/
def setRoot (root? : Option Nat) (target : Code.Var) : List Code.Instr :=
  root?.toList.map fun slot => .setRoot slot (.load target)

/-- Gives up the root slots of the values that a let declares. -/
def clearRoots (declarations : List (String × Typed.Expr)) : List Code.Instr :=
  declarations.filterMap fun d => d.2.root?.map .clearRoot

/-- Arms of the branch that evaluates a right operand only if the left one does not decide. -/
def rightArm (op : BinaryOp) (code : List Code.Instr) : List Code.Instr × List Code.Instr :=
  match op with
  | .and => (code, [])
  | _ => ([], code)

/-- Declares or, the second time with the same C type, overwrites a local of a let. -/
def declaration (seen : List (String × String)) (scope : Nat) (name c : String)
    (value : Code.Operand) (position : Position) : Lower Code.Instr :=
  match seen.lookup name with
  | none => return .define c (.named scope name) (some value)
  | some before =>
    if before = c then return .store (.named scope name) value
    else fail .changedDeclaration position

end Lower

open Lower

mutual

def Typed.Expr.lower : Typed.Expr → Lower Lowered
  | .integer _ value => return ⟨[], .integer value⟩
  | .boolean _ value => return ⟨[], .boolean value⟩
  | .text _ raw length => return ⟨[], .text (← intern raw length)⟩
  | .unit _ => return ⟨[], .unit⟩
  | .name _ name _ origin => return ⟨[], nameOperand name origin⟩
  | .unary _ op operand => do
    let x ← operand.lower
    match op with
    | .negate => return ⟨x.code, .negate x.value⟩
    | .not => return ⟨x.code, .not x.value⟩
  | .binary info op left right => do
    let l ← left.lower
    let r ← right.lower
    if op.isConnective && !r.code.isEmpty then
      let target ← temporary
      let c ← cType info.ty info.span.start
      let (thenBody, elseBody) := rightArm op (r.code ++ [.store target r.value])
      return ⟨l.code ++ [.define c target (some l.value), .branch (.load target) thenBody elseBody],
        .load target⟩
    else return ⟨l.code ++ r.code, .binary op l.value r.value⟩
  | .call info callee arguments => do
    let (code, values) ← lowerArguments arguments
    let call ← lowerCallee callee
    let target ← temporary
    let c ← cType info.ty info.span.start
    return ⟨code ++ [.define c target (some (call values))] ++ setRoot info.root? target,
      .load target⟩
  | .branch info condition thenArm elseArm => do
    let x ← condition.lower
    let target ← temporary
    let c ← cType info.ty info.span.start
    let t ← thenArm.lower
    let e ← elseArm.lower
    return ⟨x.code ++ [.define c target none,
      .branch x.value (t.code ++ [.store target t.value]) (e.code ++ [.store target e.value])],
      .load target⟩
  | .letIn info scope declarations body => do
    let code ← lowerDeclarations scope [] declarations
    let x ← body.lower
    match info.root? with
    | none => return ⟨code ++ x.code ++ clearRoots declarations, x.value⟩
    | some slot => do
      let target ← temporary
      let c ← cType info.ty info.span.start
      return ⟨code ++ x.code ++ [.define c target (some x.value), .setRoot slot (.load target)] ++
        clearRoots declarations, .load target⟩
  | .block _ body => lowerBody body

/-- The expressions of a block; only the value of the last one is read. -/
def lowerBody : List Typed.Expr → Lower Lowered
  | [] => return ⟨[], .unit⟩
  | [e] => e.lower
  | e :: next :: more => do
    let code ← match e with
      | .call _ callee arguments => do
        let (code, values) ← lowerArguments arguments
        let call ← lowerCallee callee
        pure (code ++ [.eval (call values)])
      | other => do
        let x ← other.lower
        pure x.code
    let x ← lowerBody (next :: more)
    return ⟨code ++ x.code, x.value⟩

/-- Arguments from left to right. -/
def lowerArguments : List Typed.Expr → Lower (List Code.Instr × List Code.Operand)
  | [] => return ([], [])
  | e :: more => do
    let x ← e.lower
    let (code, values) ← lowerArguments more
    return (x.code ++ code, x.value :: values)

/-- How a callee is called. A literal is lifted out to a procedure of its own. -/
def lowerCallee : Typed.Callee Typed.Expr → Lower (List Code.Operand → Code.Operand)
  | .builtin name => return builtinCall name
  | .global name => return .callProcedure (.user name)
  | .literal ⟨scope, parameters, result, body, size, span⟩ => do
    let p ← prototype (.literal scope) ⟨scope, parameters, result, body, size, span⟩
    addPrototype p
    let x ← inProcedure scope body.lower
    addProcedure ⟨p, scope, prologue size ++ x.code ++ [.ret x.value]⟩
    return .callProcedure (.literal scope)

/-- Declarations of a let; `seen` are the C types of those before. -/
def lowerDeclarations (scope : Nat) (seen : List (String × String)) :
    List (String × Typed.Expr) → Lower (List Code.Instr)
  | [] => return []
  | (name, value) :: more => do
    let x ← value.lower
    let c ← cType value.ty value.span.start
    let instr ← declaration seen scope name c x.value value.span.start
    let code ← lowerDeclarations scope ((name, c) :: seen) more
    return x.code ++ [instr] ++ code

end

namespace Lower

/-- A procedure with the prototype made for it before. -/
def procedure (p : Code.Prototype) (literal : Typed.Procedure Typed.Expr) : Lower Unit := do
  let x ← inProcedure literal.scope literal.body.lower
  addProcedure ⟨p, literal.scope,
    prologue literal.rootCount ++ x.code ++ [.ret x.value]⟩

/-- The entry, whose value nobody reads. -/
def entry (literal : Typed.Procedure Typed.Expr) : Lower Unit := do
  let x ← inProcedure literal.scope literal.body.lower
  setEntry ⟨literal.scope, prologue literal.rootCount ++ x.code⟩

def constant (c : Typed.Constant) : Lower Unit := do
  let x ← c.value.lower
  let cType ← cType c.ty c.value.span.start
  addConstant ⟨c.name, cType, x.value⟩

def prototypes : List (String × Typed.Procedure Typed.Expr) → Lower (List Code.Prototype)
  | [] => return []
  | (name, literal) :: more => do
    let p ← prototype (.user name) literal
    addPrototype p
    let ps ← prototypes more
    return p :: ps

def constants : List Typed.Constant → Lower Unit
  | [] => pure ()
  | c :: more => do
    constant c
    constants more

def procedures : List (Code.Prototype × Typed.Procedure Typed.Expr) → Lower Unit
  | [] => pure ()
  | (p, literal) :: more => do
    procedure p literal
    procedures more

/-- Prototypes of the named procedures first, then constants, bodies and the entry. -/
def module (m : Typed.Module) : Lower Unit := do
  let ps ← prototypes m.procedures
  constants m.constants
  procedures (ps.zip (m.procedures.map (·.2)))
  match m.entryPoint? with
  | some literal => entry literal
  | none => pure ()

end Lower

/-- The code of a typed module. -/
def Typed.Module.lower (m : Typed.Module) : Except Diagnostic Code.Module :=
  match Lower.module m Builder.initial with
  | .ok _ b => .ok b.module
  | .error d _ => .error d

end RootedC
