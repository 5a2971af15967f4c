import RootedC.Diagnostic.Cause
import RootedC.Source.Position

/-! A diagnostic is a cause at a position. -/
namespace RootedC

structure Diagnostic where
  cause : Cause
  position : Position
  deriving DecidableEq, Repr

namespace Diagnostic

def category (d : Diagnostic) : Category := d.cause.category

/-- The diagnostic on one line: category, place and cause. -/
def message (d : Diagnostic) : String :=
  d.category.name ++ " at " ++ d.position.file ++ ":" ++ d.position.offset.repr ++ ": " ++
    d.cause.sentence

end Diagnostic

end RootedC
