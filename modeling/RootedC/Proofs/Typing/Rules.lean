import Mathlib.Data.List.Forall2
import RootedC.Proofs.Typing.Relabel
import RootedC.Typing.Module

/-!
The typing rules. They say which programs are well typed and what type each part has, without any
order of work: there are no scopes to open, no slots to hand out and no types to be found later. A
derivation gives the typed program with the numbers that a check hands out forgotten.
-/
namespace RootedC

/-- What a written type means. -/
inductive TypeExpr.Denotes : TypeExpr → Ty → Prop
  | i32 {p : Position} : Denotes (.name "i32" p) .i32
  | bool {p : Position} : Denotes (.name "bool" p) .bool
  | str {p : Position} : Denotes (.name "str" p) .str
  | unit {p : Position} : Denotes (.name "unit" p) .unit
  | proc {ps : List TypeExpr} {r : TypeExpr} {p : Position} {tys : List Ty} {ty : Ty}
    (hps : List.Forall₂ Denotes ps tys) (hr : Denotes r ty) :
    Denotes (.proc ps r p) (.proc tys ty)

/-- A parameter with a type written for it. -/
def Parameter.Has (p : Parameter) (ty : Ty) : Prop := ∃ t, p.type? = some t ∧ t.Denotes ty

/-- The type of the operand, which is that of the result too. -/
inductive UnaryOp.On : UnaryOp → Ty → Prop
  | negate : On .negate .i32
  | not : On .not .bool

/-- The types of both operands and of the result. -/
inductive BinaryOp.On : BinaryOp → Ty → Ty → Prop
  | arithmetic {op : BinaryOp} (h : op ∈ [add, sub, mul, div, mod]) : On op .i32 .i32
  | ordering {op : BinaryOp} (h : op ∈ [lt, le, gt, ge]) : On op .i32 .bool
  | equality {op : BinaryOp} {ty : Ty} (h : op ∈ [eq, ne]) (ht : ty = .i32 ∨ ty = .bool) :
    On op ty .bool
  | connective {op : BinaryOp} (h : op ∈ [and, or]) : On op .bool .bool

namespace Expr

mutual

/-- Whether every parameter of every procedure literal in an expression has a type written for
it. -/
def annotated : Expr → Bool
  | number _ _ | text _ _ | boolean _ _ | unit _ | name _ _ => true
  | unary _ x _ => x.annotated
  | binary x _ y _ => x.annotated && y.annotated
  | call c es _ => c.annotated && annotatedAll es
  | branch c x (some y) _ => c.annotated && x.annotated && y.annotated
  | branch c x none _ => c.annotated && x.annotated
  | letIn ds x _ => annotatedDeclarations ds && x.annotated
  | procedure ⟨ps, _, body, _⟩ => ps.all (·.type?.isSome) && body.annotated
  | block es _ => annotatedAll es

def annotatedAll : List Expr → Bool
  | [] => true
  | e :: more => e.annotated && annotatedAll more

def annotatedDeclarations : List (Declaration Expr) → Bool
  | [] => true
  | ⟨_, _, e, _⟩ :: more => e.annotated && annotatedDeclarations more

end

end Expr

namespace Item

def annotated : Item → Bool
  | procedure _ literal _ => literal.body.annotated
  | constant _ _ value _ => value.annotated
  | mutable _ _ value _ => value.annotated
  | entry body _ => body.annotated

/-- The name that an item declares. -/
def name? : Item → Option String
  | procedure name _ _ => some name
  | constant name _ _ _ => some name
  | mutable name _ _ _ => some name
  | entry _ _ => none

end Item

namespace Rules

/-- What a lexical name stands for: a value of the activation itself, or one of an activation around
it, which is out of reach. -/
inductive Binding where
  | here (ty : Ty)
  | outer

/-- The innermost lexical binding of each name. -/
abbrev Env := String → Option Binding

namespace Env

def empty : Env := fun _ => none

def bind (Γ : Env) (x : String) (ty : Ty) : Env := fun y => if y = x then some (.here ty) else Γ y

def bindAll (Γ : Env) (ps : List (String × Ty)) : Env := ps.foldl (fun Γ p => Γ.bind p.1 p.2) Γ

/-- What is seen of an environment from inside another procedure. -/
def enter (Γ : Env) : Env := fun x => (Γ x).map fun _ => .outer

end Env

/-- The types of the top-level names. -/
abbrev Globals := String → Ty → Prop

mutual

/-- An expression has a typed form, with the type that it has at each of its parts. -/
inductive Elaborates (G : Globals) : Env → Expr → Typed.Expr → Prop
  | number {Γ : Env} {value : Int} {s : Span} :
    Elaborates G Γ (.number value s) (.integer ⟨.i32, none, s⟩ value)
  | text {Γ : Env} {raw : String} {s : Span} :
    Elaborates G Γ (.text raw s) (.text ⟨.str, none, s⟩ raw (Text.decodedLength raw))
  | boolean {Γ : Env} {value : Bool} {s : Span} :
    Elaborates G Γ (.boolean value s) (.boolean ⟨.bool, none, s⟩ value)
  | unit {Γ : Env} {s : Span} : Elaborates G Γ (.unit s) (.unit ⟨.unit, none, s⟩)
  | lexical {Γ : Env} {x : String} {s : Span} {ty : Ty} (hx : Γ x = some (.here ty))
    (hty : ty.isProcedure = false) :
    Elaborates G Γ (.name x s) (.name ⟨ty, none, s⟩ x 0 (.lexical 0))
  | global {Γ : Env} {x : String} {s : Span} {ty : Ty} (hx : Γ x = none) (hg : G x ty)
    (hty : ty.isProcedure = false) :
    Elaborates G Γ (.name x s) (.name ⟨ty, none, s⟩ x 0 .global)
  | unary {Γ : Env} {operator : Token} {x : Expr} {s : Span} {op : UnaryOp} {tx : Typed.Expr}
    (hop : UnaryOp.ofKind? operator.kind = some op) (hx : Elaborates G Γ x tx)
    (hty : op.On tx.ty) :
    Elaborates G Γ (.unary operator x s) (.unary ⟨tx.ty, none, s⟩ op tx)
  | binary {Γ : Env} {operator : Token} {x y : Expr} {s : Span} {op : BinaryOp}
    {tx ty : Typed.Expr} {result : Ty} (hop : BinaryOp.ofKind? operator.kind = some op)
    (hx : Elaborates G Γ x tx) (hy : Elaborates G Γ y ty) (hsame : ty.ty = tx.ty)
    (hty : op.On tx.ty result) :
    Elaborates G Γ (.binary x operator y s) (.binary ⟨result, none, s⟩ op tx ty)
  | call {Γ : Env} {callee : Expr} {arguments : List Expr} {s : Span}
    {tc : Typed.Callee Typed.Expr} {result : Ty} {tes : List Typed.Expr}
    (hc : ElaborateCallee G Γ callee tc (tes.map (·.ty)) result)
    (hes : ElaborateAll G Γ arguments tes) :
    Elaborates G Γ (.call callee arguments s) (.call ⟨result, none, s⟩ tc tes)
  | branch {Γ : Env} {c x y : Expr} {s : Span} {tc tx ty : Typed.Expr} (hc : Elaborates G Γ c tc)
    (hbool : tc.ty = .bool) (hx : Elaborates G Γ x tx) (hy : Elaborates G Γ y ty)
    (hsame : ty.ty = tx.ty) :
    Elaborates G Γ (.branch c x (some y) s) (.branch ⟨tx.ty, none, s⟩ tc tx ty)
  /-- A branch without an else. -/
  | single {Γ : Env} {c x : Expr} {s : Span} {tc tx : Typed.Expr} (hc : Elaborates G Γ c tc)
    (hbool : tc.ty = .bool) (hx : Elaborates G Γ x tx) (hunit : tx.ty = .unit) :
    Elaborates G Γ (.branch c x none s)
      (.branch ⟨.unit, none, s⟩ tc tx (.unit ⟨.unit, none, .empty s.stop⟩))
  | letIn {Γ Γ' : Env} {ds : List (Declaration Expr)} {x : Expr} {s : Span}
    {tds : List (String × Typed.Expr)} {tx : Typed.Expr}
    (hds : ElaborateDeclarations G Γ ds tds Γ') (hx : Elaborates G Γ' x tx) :
    Elaborates G Γ (.letIn ds x s) (.letIn ⟨tx.ty, none, s⟩ 0 tds tx)
  | block {Γ : Env} {es : List Expr} {s : Span} {tes : List Typed.Expr}
    (hes : ElaborateAll G Γ es tes) :
    Elaborates G Γ (.block es s) (.block ⟨(tes.getLast?.map (·.ty)).getD .unit, none, s⟩ tes)

inductive ElaborateAll (G : Globals) : Env → List Expr → List Typed.Expr → Prop
  | nil {Γ : Env} : ElaborateAll G Γ [] []
  | cons {Γ : Env} {e : Expr} {es : List Expr} {te : Typed.Expr} {tes : List Typed.Expr}
    (he : Elaborates G Γ e te) (hes : ElaborateAll G Γ es tes) :
    ElaborateAll G Γ (e :: es) (te :: tes)

/-- Declarations, each of which sees those before it. -/
inductive ElaborateDeclarations (G : Globals) :
    Env → List (Declaration Expr) → List (String × Typed.Expr) → Env → Prop
  | nil {Γ : Env} : ElaborateDeclarations G Γ [] [] Γ
  | cons {Γ Γ' : Env} {x : String} {type? : Option TypeExpr} {e : Expr} {s : Span}
    {ds : List (Declaration Expr)} {te : Typed.Expr} {tds : List (String × Typed.Expr)}
    (he : Elaborates G Γ e te) (hty : ∀ t ∈ type?, t.Denotes te.ty)
    (hds : ElaborateDeclarations G (Γ.bind x te.ty) ds tds Γ') :
    ElaborateDeclarations G Γ (⟨x, type?, e, s⟩ :: ds) ((x, te) :: tds) Γ'

/-- A callee with the types of its parameters and its result. -/
inductive ElaborateCallee (G : Globals) :
    Env → Expr → Typed.Callee Typed.Expr → List Ty → Ty → Prop
  | literal {Γ : Env} {L : Procedure Expr} {P : Typed.Procedure Typed.Expr}
    (h : ElaborateProcedure G Γ L P) :
    ElaborateCallee G Γ (.procedure L) (.literal P) (P.parameters.map (·.2)) P.result
  | global {Γ : Env} {f : String} {s : Span} {tys : List Ty} {ty : Ty} (hf : Γ f = none)
    (hg : G f (.proc tys ty)) : ElaborateCallee G Γ (.name f s) (.global f) tys ty
  | builtin {Γ : Env} {f : String} {s : Span} {b : Builtin} (hf : Γ f = none)
    (hg : ∀ ty, ¬ G f ty) (hb : Builtin.find? f = some b) :
    ElaborateCallee G Γ (.name f s) (.builtin f) b.parameters b.result

/-- A procedure with a type written for each of its parameters. -/
inductive ElaborateProcedure (G : Globals) :
    Env → Procedure Expr → Typed.Procedure Typed.Expr → Prop
  | intro {Γ : Env} {ps : List Parameter} {result? : Option TypeExpr} {body : Expr} {s : Span}
    {tys : List Ty} {te : Typed.Expr} (hnames : (ps.map (·.name)).Nodup)
    (hps : List.Forall₂ Parameter.Has ps tys)
    (hbody : Elaborates G (Γ.enter.bindAll ((ps.map (·.name)).zip tys)) body te)
    (hresult : ∀ t ∈ result?, t.Denotes te.ty) :
    ElaborateProcedure G Γ ⟨ps, result?, body, s⟩
      ⟨0, (ps.map (·.name)).zip tys, te.ty, te, 0, s⟩

end

/-- What a constant may be initialised with. -/
inductive IsConstant : Expr → Prop
  | number {value : Int} {s : Span} : IsConstant (.number value s)
  | boolean {value : Bool} {s : Span} : IsConstant (.boolean value s)
  | text {raw : String} {s : Span} : IsConstant (.text raw s)
  | negated {operator : Token} {value : Int} {s s' : Span} (h : operator.kind = .dash) :
    IsConstant (.unary operator (.number value s') s)

/-- A top-level item. Mutable items have no rule. -/
inductive ElaborateItem (G : Globals) : Item → Typed.Item → Prop
  | procedure {f : String} {L : Procedure Expr} {s : Span} {P : Typed.Procedure Typed.Expr}
    (h : ElaborateProcedure G .empty L P) (hresult : L.result? ≠ none) :
    ElaborateItem G (.procedure f L s) (.procedure f P)
  | constant {x : String} {t : TypeExpr} {e : Expr} {s : Span} {te : Typed.Expr}
    (hvalue : IsConstant e) (he : Elaborates G .empty e te) (ht : t.Denotes te.ty) :
    ElaborateItem G (.constant x (some t) e s) (.constant ⟨x, te.ty, te⟩)
  | entry {e : Expr} {s : Span} {te : Typed.Expr} (he : Elaborates G .empty e te) :
    ElaborateItem G (.entry e s) (.entry ⟨0, [], te.ty, te, 0, s⟩)

/-- An item gives a name a type. -/
inductive Introduces : Item → String → Ty → Prop
  | procedure {f : String} {ps : List Parameter} {t : TypeExpr} {body : Expr} {s s' : Span}
    {tys : List Ty} {ty : Ty} (hps : List.Forall₂ Parameter.Has ps tys) (ht : t.Denotes ty) :
    Introduces (.procedure f ⟨ps, some t, body, s⟩ s') f (.proc tys ty)
  | constant {x : String} {t : TypeExpr} {e : Expr} {s : Span} {ty : Ty} (ht : t.Denotes ty) :
    Introduces (.constant x (some t) e s) x ty

/-- A module: its names are different from each other and from those of builtins, and each item is
well typed where all of them are declared. -/
structure ElaborateModule (m : Module) (tm : Typed.Module) : Prop where
  distinct : (m.items.filterMap Item.name?).Nodup
  notBuiltin : ∀ x ∈ m.items.filterMap Item.name?, Builtin.find? x = none
  items : ∃ tis, List.Forall₂
    (ElaborateItem fun x ty => ∃ item ∈ m.items, Introduces item x ty) m.items tis ∧ tm = .ofItems tis

end Rules

end RootedC
