import RootedC.Code.Module
import RootedC.Typing.Tree

/-!
What lowering builds up: the module so far, the procedure whose body is being lowered and the
number of temporaries used. It is kept also when lowering fails.
-/
namespace RootedC

structure Builder where
  module : Code.Module
  procedure : Nat
  temporaries : Nat

namespace Builder

def initial : Builder := ⟨.empty, 0, 0⟩

/-- A temporary that was not used before, in the procedure being lowered. -/
def temporary (b : Builder) : Code.Var × Builder :=
  (.temporary b.procedure b.temporaries, { b with temporaries := b.temporaries + 1 })

def intern (b : Builder) (raw : String) (length : Nat) : Nat × Builder :=
  let (index, module) := b.module.intern raw length
  (index, { b with module })

end Builder

abbrev Lower := EStateM Diagnostic Builder

namespace Lower

variable {α : Type}

def fail (cause : Cause) (position : Position) : Lower α := fun b =>
  .error ⟨cause, position⟩ b

def temporary : Lower Code.Var := fun b =>
  let (target, b) := b.temporary
  .ok target b

def intern (raw : String) (length : Nat) : Lower Nat := fun b =>
  let (index, b) := b.intern raw length
  .ok index b

def cType (ty : Ty) (position : Position) : Lower String :=
  match ty.cType with
  | .ok c => pure c
  | .error cause => fail cause position

def addPrototype (p : Code.Prototype) : Lower Unit := fun b =>
  .ok () { b with module := { b.module with prototypes := b.module.prototypes ++ [p] } }

def addProcedure (p : Code.Procedure) : Lower Unit := fun b =>
  .ok () { b with module := { b.module with procedures := b.module.procedures ++ [p] } }

def addConstant (c : Code.Constant) : Lower Unit := fun b =>
  .ok () { b with module := { b.module with constants := b.module.constants ++ [c] } }

def setEntry (e : Code.Entry) : Lower Unit := fun b =>
  .ok () { b with module := { b.module with entryPoint? := some e } }

/-- Lowers inside another procedure and comes back, whatever happens. -/
def inProcedure (scope : Nat) (run : Lower α) : Lower α := fun b =>
  match run { b with procedure := scope } with
  | .ok a inner => .ok a { inner with procedure := b.procedure }
  | .error d inner => .error d { inner with procedure := b.procedure }

def parameters (scope : Nat) (position : Position) :
    List (String × Ty) → Lower (List Code.Parameter)
  | [] => return []
  | (name, ty) :: more => do
    let c ← cType ty position
    let more ← parameters scope position more
    return ⟨scope, name, c⟩ :: more

def prototype (name : Code.Name) (p : Typed.Procedure Typed.Expr) : Lower Code.Prototype := do
  let ps ← parameters p.scope p.span.start p.parameters
  let c ← cType p.result p.span.start
  return ⟨name, ps, c⟩

end Lower

end RootedC
