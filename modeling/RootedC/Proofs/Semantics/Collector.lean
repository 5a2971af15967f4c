import RootedC.Code.Module
import RootedC.Proofs.Outcome

/-!
What the collector sees of generated code. Only strings are of interest: those of the module itself,
which are never collected, and those on the heap, which are kept alive by the slots of root tables
and by whoever passed them. Branches may go either way and a call may give any string, so every
execution of an activation is a path here.
-/
namespace RootedC.Code

/-- A value as far as the collector is concerned. -/
inductive Cell where
  /-- No string at all. -/
  | plain
  /-- A string literal or a constant of the module. -/
  | static
  /-- A string on the heap, by its address. -/
  | object (address : Nat)
  deriving DecidableEq, Repr

/-- An activation: its locals, its root table with the number of its slots, and the values that it
was called with. -/
structure Activation where
  locals : Var → Cell
  roots : Nat → Cell
  size : Nat
  received : List Cell

mutual

/-- The locals that an operand reads. -/
def Operand.loads : Operand → List Var
  | .load source => [source]
  | .callBuiltin _ arguments => loadsOfAll arguments
  | .callBuiltinWithFrame _ arguments => loadsOfAll arguments
  | .callProcedure _ arguments => loadsOfAll arguments
  | .negate operand => operand.loads
  | .not operand => operand.loads
  | .binary _ left right => left.loads ++ right.loads
  | .builtin _ | .global _ | .integer _ | .boolean _ | .text _ => []

def loadsOfAll : List Operand → List Var
  | [] => []
  | x :: more => x.loads ++ loadsOfAll more

end

mutual

/-- The arguments of each call in an operand that may start a collection. -/
def Operand.collections : Operand → List (List Operand)
  | .callBuiltin _ arguments => collectionsOfAll arguments
  | .callBuiltinWithFrame _ arguments => arguments :: collectionsOfAll arguments
  | .callProcedure _ arguments => arguments :: collectionsOfAll arguments
  | .negate operand => operand.collections
  | .not operand => operand.collections
  | .binary _ left right => left.collections ++ right.collections
  | .builtin _ | .global _ | .load _ | .integer _ | .boolean _ | .text _ => []

def collectionsOfAll : List Operand → List (List Operand)
  | [] => []
  | x :: more => x.collections ++ collectionsOfAll more

end

def Operand.isCall : Operand → Bool
  | .callBuiltin _ _ | .callBuiltinWithFrame _ _ | .callProcedure _ _ => true
  | _ => false

/-- The values that an operand may have. -/
def Operand.Gives (locals : Var → Cell) : Operand → Cell → Prop
  | .load source, v => v = locals source
  | .text _, v => v = .static
  | .global _, v => v = .plain ∨ v = .static
  | .callBuiltin _ _, _ => True
  | .callBuiltinWithFrame _ _, _ => True
  | .callProcedure _ _, _ => True
  | .builtin _, v | .integer _, v | .boolean _, v | .negate _, v | .not _, v | .binary _ _ _, v =>
    v = .plain

/-- A heap string is given to locals of the type of strings only. -/
def Cell.Has (c : String) : Cell → Prop
  | .object _ => Ty.str.cType = .ok c
  | _ => True

namespace Instr

def operand? : Instr → Option Operand
  | setRoot _ value | store _ value | ret value | eval value => some value
  | define _ _ value? => value?
  | branch condition _ _ => some condition
  | rootTable _ | clearRoot _ | frame _ => none

/-- The local that an instruction writes. -/
def target? : Instr → Option Var
  | define _ target _ | store target _ => some target
  | _ => none

/-- The locals that an instruction itself reads. -/
def loads (i : Instr) : List Var := i.operand?.toList.flatMap Operand.loads

/-- The arguments of each call of an instruction that may start a collection. -/
def collections (i : Instr) : List (List Operand) := i.operand?.toList.flatMap Operand.collections

end Instr

namespace Activation

def setLocal (a : Activation) (x : Var) (v : Cell) : Activation :=
  { a with locals := fun y => if y = x then v else a.locals y }

def setRoot (a : Activation) (slot : Nat) (v : Cell) : Activation :=
  { a with roots := fun n => if n = slot then v else a.roots n }

/-- A value that needs no root: no heap string, or one that the caller holds. -/
def Frees (a : Activation) (v : Cell) : Prop := v = .plain ∨ v = .static ∨ v ∈ a.received

/-- A value that survives a collection: it needs no root, or it is in a slot of the root table. -/
def Protects (a : Activation) (v : Cell) : Prop :=
  a.Frees v ∨ ∃ slot < a.size, a.roots slot = v

def argumentsIn : List Parameter → List Cell → Var → Cell
  | p :: ps, v :: vs, x => if x = p.target then v else argumentsIn ps vs x
  | _, _, _ => .plain

/-- An activation before its first instruction. -/
def start (parameters : List Parameter) (arguments : List Cell) : Activation :=
  ⟨argumentsIn parameters arguments, fun _ => .plain, 0, arguments⟩

end Activation

/-- One instruction of an activation. The value of a call is any value of the type of the local that
gets it. -/
inductive Step : List Instr → Activation → List Instr → Activation → Prop
  | rootTable {size : Nat} {k : List Instr} {a : Activation} :
    Step (.rootTable size :: k) a k { a with roots := fun _ => .plain, size := size }
  | frame {size : Nat} {k : List Instr} {a : Activation} : Step (.frame size :: k) a k a
  | setRoot {slot : Nat} {x : Operand} {k : List Instr} {a : Activation} {v : Cell}
    (hv : x.Gives a.locals v) : Step (.setRoot slot x :: k) a k (a.setRoot slot v)
  | clearRoot {slot : Nat} {k : List Instr} {a : Activation} :
    Step (.clearRoot slot :: k) a k (a.setRoot slot .plain)
  | undefine {c : String} {target : Var} {k : List Instr} {a : Activation} :
    Step (.define c target none :: k) a k (a.setLocal target .plain)
  | define {c : String} {target : Var} {x : Operand} {k : List Instr} {a : Activation} {v : Cell}
    (hv : x.Gives a.locals v) (hc : x.isCall = true → v.Has c) :
    Step (.define c target (some x) :: k) a k (a.setLocal target v)
  | store {target : Var} {x : Operand} {k : List Instr} {a : Activation} {v : Cell}
    (hv : x.Gives a.locals v) : Step (.store target x :: k) a k (a.setLocal target v)
  | eval {x : Operand} {k : List Instr} {a : Activation} : Step (.eval x :: k) a k a
  | ret {x : Operand} {k : List Instr} {a : Activation} : Step (.ret x :: k) a [] a
  | thenArm {x : Operand} {is js k : List Instr} {a : Activation} :
    Step (.branch x is js :: k) a (is ++ k) a
  | elseArm {x : Operand} {is js k : List Instr} {a : Activation} :
    Step (.branch x is js :: k) a (js ++ k) a

/-- A path of an activation. -/
inductive Reaches : List Instr → Activation → List Instr → Activation → Prop
  | refl {k : List Instr} {a : Activation} : Reaches k a k a
  | step {k k' k'' : List Instr} {a a' a'' : Activation} (h : Step k a k' a')
    (hr : Reaches k' a' k'' a'') : Reaches k a k'' a''

/-- A path of one instruction or more that leaves a local alone. -/
inductive Keeps (x : Var) : List Instr → Activation → List Instr → Activation → Prop
  | last {i : Instr} {k k' : List Instr} {a a' : Activation} (h : Step (i :: k) a k' a')
    (hx : i.target? ≠ some x) : Keeps x (i :: k) a k' a'
  | step {i : Instr} {k k' k'' : List Instr} {a a' a'' : Activation}
    (h : Step (i :: k) a k' a') (hx : i.target? ≠ some x) (hr : Keeps x k' a' k'' a'') :
    Keeps x (i :: k) a k'' a''

end RootedC.Code
