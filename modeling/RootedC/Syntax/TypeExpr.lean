import RootedC.Source.Position

/-! Types as they are written in a program. -/
namespace RootedC

inductive TypeExpr where
  | name (name : String) (position : Position)
  | array (element : TypeExpr) (position : Position)
  | proc (parameters : List TypeExpr) (result : TypeExpr) (position : Position)

namespace TypeExpr

def position : TypeExpr → Position
  | name _ p => p
  | array _ p => p
  | proc _ _ p => p

end TypeExpr

end RootedC
