import RootedC.Syntax.Expr

/-! A module is the list of top-level items of a source file. -/
namespace RootedC

inductive Item where
  | procedure (name : String) (literal : Procedure Expr) (span : Span)
  | constant (name : String) (type? : Option TypeExpr) (value : Expr) (span : Span)
  | mutable (name : String) (type? : Option TypeExpr) (value : Expr) (span : Span)
  | entry (body : Expr) (span : Span)

namespace Item

def span : Item → Span
  | procedure _ _ s => s
  | constant _ _ _ s => s
  | mutable _ _ _ s => s
  | entry _ s => s

def isEntry : Item → Bool
  | entry _ _ => true
  | _ => false

end Item

structure Module where
  items : List Item
  span : Span

namespace Module

/-- The first entry block, where the program starts. -/
def entryPoint? (m : Module) : Option Item := m.items.find? Item.isEntry

end Module

end RootedC
