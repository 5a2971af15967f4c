import RootedC.Syntax.Module
import RootedC.Typing.Builtin
import RootedC.Typing.Scope
import RootedC.Typing.Tree

/-!
What a type check knows and builds up: the scopes opened so far and the types of the top-level
names. Checks run in a monad that keeps this knowledge also when they fail.
-/
namespace RootedC

structure Context where
  scopes : ScopeTree
  globals : Bindings Ty
  moduleScope : Nat

namespace Context

/-- A module scope and nothing else. -/
def initial : Context :=
  let (moduleScope, scopes) := ScopeTree.empty.create .module none
  ⟨scopes, [], moduleScope⟩

/-- The meaning of a name seen from a scope: lexical bindings first, then top-level names, then
builtins. The level of the last two is the depth of the scope. -/
def find? (c : Context) (scope : Nat) (name : String) : Option (Ty × Nat × Typed.Origin) :=
  match c.scopes.find? scope name with
  | some r => some (r.ty, r.level, .lexical r.scope)
  | none =>
    match c.globals.get? name with
    | some ty => some (ty, c.scopes.depth scope, .global)
    | none => (Builtin.find? name).map fun b => (b.ty, c.scopes.depth scope, .builtin)

end Context

abbrev Check := EStateM Diagnostic Context

namespace Check

variable {α : Type}

def fail (cause : Cause) (position : Position) : Check α := fun c =>
  .error ⟨cause, position⟩ c

def lift : Except Diagnostic α → Check α
  | .ok a => pure a
  | .error d => fail d.cause d.position

def openScope (kind : ScopeKind) (parent : Nat) : Check Nat := fun c =>
  let (id, scopes) := c.scopes.create kind (some parent)
  .ok id { c with scopes }

def define (scope : Nat) (name : String) (ty : Ty) : Check Unit := fun c =>
  .ok () { c with scopes := c.scopes.define scope name ty }

def defineAll (scope : Nat) : List (String × Ty) → Check Unit
  | [] => pure ()
  | (name, ty) :: more => do
    define scope name ty
    defineAll scope more

def declareGlobal (name : String) (ty : Ty) : Check Unit := fun c =>
  .ok () { c with globals := c.globals.bind name ty }

/-- The root slot for a value of a type, if it may be on the heap. -/
def rootFor (ty : Ty) (scope : Nat) (position : Position) : Check (Option Nat) :=
  if ty.mayBeHeap then fun c =>
    match c.scopes.takeRootSlot? scope with
    | some (slot, scopes) => .ok (some slot) { c with scopes }
    | none => .error ⟨.noActivation, position⟩ c
  else pure none

/-- A lexical binding is used only inside the activation it belongs to. -/
def sameActivation (scope definedIn : Nat) (position : Position) : Check Unit := do
  let c ← get
  if c.scopes.activation? scope = c.scopes.activation? definedIn then pure ()
  else fail .capturedVariable position

/-- Requires two types to agree. -/
def expectTy (expected received : Ty) (position : Position) : Check Unit :=
  if expected.agrees received then pure ()
  else fail (.mismatch expected.display received.display) position

end Check

end RootedC
