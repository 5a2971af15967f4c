/-! Binding powers: how strongly an operator holds on to what stands beside it. -/
namespace RootedC

inductive Power where
  | lowest | disjunction | conjunction | relation | sum | product | unary | call
  deriving DecidableEq, Repr

namespace Power

def rank : Power → Nat
  | lowest => 0
  | disjunction => 1
  | conjunction => 2
  | relation => 3
  | sum => 4
  | product => 5
  | unary => 6
  | call => 7

def all : List Power := [lowest, disjunction, conjunction, relation, sum, product, unary, call]

def name : Power → String
  | lowest => "Default"
  | disjunction => "LogicalOr"
  | conjunction => "LogicalAnd"
  | relation => "Relational"
  | sum => "Additive"
  | product => "Multiplicative"
  | unary => "Unary"
  | call => "Call"

def ofName? (text : String) : Option Power := all.find? (·.name = text)

end Power

end RootedC
