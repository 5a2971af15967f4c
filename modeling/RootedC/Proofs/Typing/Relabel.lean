import RootedC.Typing.Tree

/-!
Typed programs up to what a check hands out. The numbers of scopes, the levels of names, root slots
and the sizes of root tables can be changed all over a typed program at once; everything else, the
types above all, stays.
-/
namespace RootedC.Typed

/-- A change of everything that a check hands out. -/
structure Relabel where
  scope : Nat → Nat
  level : Nat → Nat
  root? : Option Nat → Option Nat
  size : Nat → Nat

namespace Relabel

/-- Forgets all that a check hands out. -/
def forget : Relabel := ⟨fun _ => 0, fun _ => 0, fun _ => none, fun _ => 0⟩

/-- Gives scopes other numbers. -/
def renumber (ρ : Nat → Nat) : Relabel := ⟨ρ, id, id, id⟩

end Relabel

variable {r : Relabel}

def Info.relabel (r : Relabel) (i : Info) : Info := { i with root? := r.root? i.root? }

def Origin.relabel (r : Relabel) : Origin → Origin
  | lexical scope => lexical (r.scope scope)
  | global => global
  | builtin => builtin

namespace Expr

mutual

def relabel (r : Relabel) : Expr → Expr
  | integer i value => integer (i.relabel r) value
  | boolean i value => boolean (i.relabel r) value
  | text i raw length => text (i.relabel r) raw length
  | unit i => unit (i.relabel r)
  | name i z level origin => name (i.relabel r) z (r.level level) (origin.relabel r)
  | unary i op x => unary (i.relabel r) op (relabel r x)
  | binary i op x y => binary (i.relabel r) op (relabel r x) (relabel r y)
  | call i c es => call (i.relabel r) (relabelCallee r c) (relabelAll r es)
  | branch i c x y => branch (i.relabel r) (relabel r c) (relabel r x) (relabel r y)
  | letIn i scope ds x =>
    letIn (i.relabel r) (r.scope scope) (relabelDeclarations r ds) (relabel r x)
  | block i es => block (i.relabel r) (relabelAll r es)

def relabelAll (r : Relabel) : List Expr → List Expr
  | [] => []
  | e :: more => relabel r e :: relabelAll r more

def relabelDeclarations (r : Relabel) : List (String × Expr) → List (String × Expr)
  | [] => []
  | (z, e) :: more => (z, relabel r e) :: relabelDeclarations r more

def relabelCallee (r : Relabel) : Callee Expr → Callee Expr
  | .builtin z => .builtin z
  | .global z => .global z
  | .literal ⟨scope, parameters, result, body, size, span⟩ =>
    .literal ⟨r.scope scope, parameters, result, relabel r body, r.size size, span⟩

end

@[simp] theorem ty_relabel (e : Expr) : (e.relabel r).ty = e.ty := by
  cases e <;> rfl

theorem relabelAll_eq_map (es : List Expr) : relabelAll r es = es.map (relabel r) := by
  induction es with
  | nil => rfl
  | cons e more ih => rw [relabelAll, ih, List.map_cons]

/-- The types of expressions stay, one by one. -/
theorem map_ty_relabelAll (es : List Expr) : (relabelAll r es).map (·.ty) = es.map (·.ty) := by
  rw [relabelAll_eq_map, List.map_map]
  exact List.map_congr_left fun e _ => ty_relabel e

/-- The type of a block stays. -/
theorem last_ty_relabelAll (es : List Expr) :
    ((relabelAll r es).getLast?.map (·.ty)).getD .unit = (es.getLast?.map (·.ty)).getD .unit := by
  rw [← List.getLast?_map, ← List.getLast?_map, map_ty_relabelAll]

end Expr

def Procedure.relabel (r : Relabel) (p : Procedure Expr) : Procedure Expr where
  scope := r.scope p.scope
  parameters := p.parameters
  result := p.result
  body := p.body.relabel r
  rootCount := r.size p.rootCount
  span := p.span

theorem Expr.relabelCallee_literal (p : Procedure Expr) :
    relabelCallee r (.literal p) = .literal (p.relabel r) := by
  rw [relabelCallee]
  rfl

def Item.relabel (r : Relabel) : Item → Item
  | procedure name literal => procedure name (literal.relabel r)
  | constant c => constant { c with value := c.value.relabel r }
  | entry literal => entry (literal.relabel r)

def Module.relabel (r : Relabel) (m : Module) : Module where
  procedures := m.procedures.map fun p => (p.1, p.2.relabel r)
  constants := m.constants.map fun c => { c with value := c.value.relabel r }
  entryPoint? := m.entryPoint?.map (Procedure.relabel r)

theorem Module.relabel_ofItems (items : List Item) :
    (ofItems items).relabel r = ofItems (items.map (Item.relabel r)) := by
  simp only [relabel, ofItems, Module.mk.injEq, List.filterMap_map, List.map_filterMap,
    ← List.getLast?_map]
  refine ⟨?_, ?_, ?_⟩
  · congr 1
    funext item
    cases item <;> rfl
  · congr 1
    funext item
    cases item <;> rfl
  · congr 2
    funext item
    cases item <;> rfl

end RootedC.Typed
