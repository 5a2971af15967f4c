import RootedC.Typing.Bindings
import RootedC.Typing.Ty

/-!
Lexical scopes. They are numbered in the order in which they are opened. A scope names the scope
around it by number, and a number may be named before its scope is opened. A procedure's scope
counts the root slots of its activation.
-/
namespace RootedC

inductive ScopeKind where
  | module | procedure | letIn
  deriving DecidableEq, Repr

structure Scope where
  kind : ScopeKind
  bindings : Bindings Ty
  /-- The next free slot of the activation's root table. -/
  rootSlots : Nat
  parent? : Option Nat

structure ScopeTree where
  scopes : Array Scope

/-- What a name means, how many scopes outward it was found, and in which scope. -/
structure BindingSite where
  ty : Ty
  level : Nat
  scope : Nat

namespace ScopeTree

def empty : ScopeTree := ⟨#[]⟩

def size (t : ScopeTree) : Nat := t.scopes.size

def get? (t : ScopeTree) (id : Nat) : Option Scope := t.scopes[id]?

/-- Opens a scope and gives its number. -/
def create (t : ScopeTree) (kind : ScopeKind) (parent? : Option Nat) : Nat × ScopeTree :=
  (t.size, ⟨t.scopes.push ⟨kind, [], 0, parent?⟩⟩)

def define (t : ScopeTree) (id : Nat) (name : String) (ty : Ty) : ScopeTree :=
  ⟨t.scopes.modify id fun s => { s with bindings := s.bindings.bind name ty }⟩

/-- What a name means in one scope alone. -/
def lookup? (t : ScopeTree) (id : Nat) (name : String) : Option Ty :=
  (t.get? id).bind (·.bindings.get? name)

def parent? (t : ScopeTree) (id : Nat) : Option Nat := (t.get? id).bind (·.parent?)

/-- The first `n` of a scope and the scopes around it, from the inside out. -/
def climb (t : ScopeTree) : Nat → Nat → List Nat
  | 0, _ => []
  | n + 1, id =>
    match t.parent? id with
    | none => [id]
    | some p => id :: climb t n p

/-- A scope and all the scopes around it, from the inside out. Scopes that do not surround
themselves are all met within as many steps as there are scopes. -/
def chain (t : ScopeTree) (id : Nat) : List Nat := t.climb (t.size + 1) id

/-- The first of some scopes, at `level` and on, that binds a name. -/
def findIn (t : ScopeTree) (name : String) : Nat → List Nat → Option BindingSite
  | _, [] => none
  | level, id :: outer =>
    match t.lookup? id name with
    | some ty => some ⟨ty, level, id⟩
    | none => findIn t name (level + 1) outer

/-- The innermost binding of a name that is seen from a scope. -/
def find? (t : ScopeTree) (id : Nat) (name : String) : Option BindingSite :=
  t.findIn name 0 (t.chain id)

def isProcedure (t : ScopeTree) (id : Nat) : Bool := (t.get? id).any (·.kind = .procedure)

/-- The procedure whose activation a scope belongs to. -/
def activation? (t : ScopeTree) (id : Nat) : Option Nat := (t.chain id).find? t.isProcedure

/-- How many scopes are around a scope. -/
def depth (t : ScopeTree) (id : Nat) : Nat := (t.chain id).length - 1

/-- The procedure that keeps the root slots of a scope. A module keeps none, whatever is around
it. -/
def slotOwner? (t : ScopeTree) (id : Nat) : Option Nat :=
  match (t.get? id).map Scope.kind with
  | some .procedure | some .letIn => t.activation? id
  | _ => none

def rootSlotsAt (t : ScopeTree) (id : Nat) : Nat := ((t.get? id).map Scope.rootSlots).getD 0

/-- Hands out the next root slot of the activation that a scope belongs to. -/
def takeRootSlot? (t : ScopeTree) (id : Nat) : Option (Nat × ScopeTree) :=
  (t.slotOwner? id).map fun owner =>
    (t.rootSlotsAt owner, ⟨t.scopes.modify owner fun s => { s with rootSlots := s.rootSlots + 1 }⟩)

/-- How many root slots the activation of a scope has handed out. -/
def rootCount (t : ScopeTree) (id : Nat) : Nat :=
  ((t.activation? id).map t.rootSlotsAt).getD 0

end ScopeTree

end RootedC
