import RootedC.Proofs.Reading.Consumption
import RootedC.Reading.Power
import RootedC.Syntax.Module
import RootedC.Text.Decimal
import RootedC.Typing.Operator

/-!
The grammar as a relation between lists of tokens and what they stand for, one rule per production.
Expressions come in strata: disjunctions, conjunctions, comparisons, sums, products, unary
expressions and calls, each of them made of expressions of its own stratum on the left and of
stronger ones on the right.
-/
namespace RootedC

/-- The stratum of the expressions made with an operator. -/
def BinaryOp.power : BinaryOp → Power
  | or => .disjunction
  | and => .conjunction
  | eq | ne | lt | le | gt | ge => .relation
  | add | sub => .sum
  | mul | div | mod => .product

/-- The next stronger stratum; calls are the strongest. -/
def Power.above : Power → Power
  | lowest => disjunction
  | disjunction => conjunction
  | conjunction => relation
  | relation => sum
  | sum => product
  | product => unary
  | unary | call => call

/-- What tokens can stand for, one form for each nonterminal of the grammar. -/
inductive Phrase where
  /-- A type that brackets may follow. -/
  | element (a : TypeExpr)
  | type (a : TypeExpr)
  | types (as : List TypeExpr)
  /-- A type behind a token of the given kind, or nothing. -/
  | ascription (mark : Kind) (type? : Option TypeExpr)
  | parameter (p : Parameter)
  | parameters (ps : List Parameter)
  | expr (stratum : Power) (e : Expr)
  | arguments (es : List Expr)
  | body (es : List Expr)
  | block (e : Expr)
  | branch (e : Expr)
  | declaration (d : Declaration Expr)
  | declarations (ds : List (Declaration Expr))
  /-- What follows `proc` and, if there is one, the name. -/
  | signature (start : Position) (literal : Procedure Expr)
  /-- What follows `const` or `var`. -/
  | binding (name : String) (type? : Option TypeExpr) (value : Expr) (stop : Position)
  | item (i : Item)
  | items (is : List Item)

open TokenStream (lastStop)

/-- The tokens `ts` stand for a phrase: each token is used by one rule, in order. -/
inductive Spells : List Token → Phrase → Prop
  -- types; brackets belong to the name in front of them
  | typeName {t : Token} (ht : t.kind = .identifier) :
    Spells [t] (.element (.name t.value t.span.start))
  | typeArray {ts : List Token} {a : TypeExpr} {o c : Token} (ha : Spells ts (.element a))
    (ho : o.kind = .openBracket) (hc : c.kind = .closeBracket) :
    Spells (ts ++ [o, c]) (.element (.array a a.position))
  | typeElement {ts : List Token} {a : TypeExpr} (ha : Spells ts (.element a)) :
    Spells ts (.type a)
  | typeProc {t o c arrow : Token} {ts us : List Token} {as : List TypeExpr} {r : TypeExpr}
    (ht : t.kind = .wordProc) (ho : o.kind = .openParen) (has : Spells ts (.types as))
    (hc : c.kind = .closeParen) (harrow : arrow.kind = .arrow) (hr : Spells us (.type r)) :
    Spells (t :: o :: (ts ++ c :: arrow :: us)) (.type (.proc as r t.span.start))
  -- lists in parentheses, which may end in a comma
  | typesNil : Spells [] (.types [])
  | typesLast {ts : List Token} {a : TypeExpr} (ha : Spells ts (.type a)) : Spells ts (.types [a])
  | typesCons {ts us : List Token} {c : Token} {a : TypeExpr} {as : List TypeExpr}
    (ha : Spells ts (.type a)) (hc : c.kind = .comma) (has : Spells us (.types as)) :
    Spells (ts ++ c :: us) (.types (a :: as))
  | ascriptionNone {k : Kind} (hk : k = .colon ∨ k = .arrow) : Spells [] (.ascription k none)
  | ascriptionSome {k : Kind} {t : Token} {ts : List Token} {a : TypeExpr}
    (hk : k = .colon ∨ k = .arrow) (ht : t.kind = k) (ha : Spells ts (.type a)) :
    Spells (t :: ts) (.ascription k (some a))
  | parameter {t : Token} {ts : List Token} {type? : Option TypeExpr} (ht : t.kind = .identifier)
    (ha : Spells ts (.ascription .colon type?)) :
    Spells (t :: ts) (.parameter ⟨t.value, type?, ⟨t.span.start, lastStop t ts⟩⟩)
  | parametersNil : Spells [] (.parameters [])
  | parametersLast {ts : List Token} {p : Parameter} (hp : Spells ts (.parameter p)) :
    Spells ts (.parameters [p])
  | parametersCons {ts us : List Token} {c : Token} {p : Parameter} {ps : List Parameter}
    (hp : Spells ts (.parameter p)) (hc : c.kind = .comma) (hps : Spells us (.parameters ps)) :
    Spells (ts ++ c :: us) (.parameters (p :: ps))
  -- expressions that need no parentheses anywhere
  | number {t : Token} {v : Int} (ht : t.kind = .number) (hv : Text.int32? t.value = some v) :
    Spells [t] (.expr .call (.number v t.span))
  | name {t : Token} (ht : t.kind = .identifier) : Spells [t] (.expr .call (.name t.value t.span))
  | text {t : Token} (ht : t.kind = .string) : Spells [t] (.expr .call (.text t.value t.span))
  | isTrue {t : Token} (ht : t.kind = .wordTrue) : Spells [t] (.expr .call (.boolean true t.span))
  | isFalse {t : Token} (ht : t.kind = .wordFalse) :
    Spells [t] (.expr .call (.boolean false t.span))
  | unit {o c : Token} (ho : o.kind = .openParen) (hc : c.kind = .closeParen) :
    Spells [o, c] (.expr .call (.unit ⟨o.span.start, c.span.stop⟩))
  | grouping {o c : Token} {ts : List Token} {e : Expr} (ho : o.kind = .openParen)
    (he : Spells ts (.expr .disjunction e)) (hc : c.kind = .closeParen) :
    Spells (o :: (ts ++ [c])) (.expr .call e)
  | ofBlock {ts : List Token} {e : Expr} (he : Spells ts (.block e)) : Spells ts (.expr .call e)
  | ofBranch {ts : List Token} {e : Expr} (he : Spells ts (.branch e)) : Spells ts (.expr .call e)
  | letIn {t : Token} {ts us : List Token} {ds : List (Declaration Expr)} {b : Expr}
    (ht : t.kind = .wordLet) (hds : Spells ts (.declarations ds)) (hb : Spells us (.block b)) :
    Spells (t :: (ts ++ us)) (.expr .call (.letIn ds b ⟨t.span.start, b.span.stop⟩))
  | procedure {t : Token} {ts : List Token} {l : Procedure Expr} (ht : t.kind = .wordProc)
    (hl : Spells ts (.signature t.span.start l)) : Spells (t :: ts) (.expr .call (.procedure l))
  | call {ts us : List Token} {o c : Token} {f : Expr} {es : List Expr}
    (hf : Spells ts (.expr .call f)) (ho : o.kind = .openParen) (hes : Spells us (.arguments es))
    (hc : c.kind = .closeParen) :
    Spells (ts ++ o :: (us ++ [c])) (.expr .call (.call f es ⟨f.span.start, c.span.stop⟩))
  -- operators; those of one stratum stand to the left of each other
  | unary {t : Token} {op : UnaryOp} {ts : List Token} {x : Expr}
    (ht : UnaryOp.ofKind? t.kind = some op) (hx : Spells ts (.expr .unary x)) :
    Spells (t :: ts) (.expr .unary (.unary t x ⟨t.span.start, x.span.stop⟩))
  | binary {t : Token} {op : BinaryOp} {ts us : List Token} {l r : Expr}
    (hl : Spells ts (.expr op.power l)) (ht : BinaryOp.ofKind? t.kind = some op)
    (hr : Spells us (.expr op.power.above r)) :
    Spells (ts ++ t :: us) (.expr op.power (.binary l t r ⟨l.span.start, r.span.stop⟩))
  | weaker {p : Power} {ts : List Token} {e : Expr} (he : Spells ts (.expr p.above e)) :
    Spells ts (.expr p e)
  | argumentsNil : Spells [] (.arguments [])
  | argumentsLast {ts : List Token} {e : Expr} (he : Spells ts (.expr .disjunction e)) :
    Spells ts (.arguments [e])
  | argumentsCons {ts us : List Token} {c : Token} {e : Expr} {es : List Expr}
    (he : Spells ts (.expr .disjunction e)) (hc : c.kind = .comma)
    (hes : Spells us (.arguments es)) : Spells (ts ++ c :: us) (.arguments (e :: es))
  -- blocks; a semicolon at the end stands for a unit
  | bodyNil : Spells [] (.body [])
  | bodyLast {ts : List Token} {e : Expr} (he : Spells ts (.expr .disjunction e)) :
    Spells ts (.body [e])
  | bodyUnit {ts : List Token} {t : Token} {e : Expr} (he : Spells ts (.expr .disjunction e))
    (ht : t.kind = .semicolon) : Spells (ts ++ [t]) (.body [e, .unit t.span])
  | bodyCons {ts us : List Token} {t : Token} {e e' : Expr} {es : List Expr}
    (he : Spells ts (.expr .disjunction e)) (ht : t.kind = .semicolon)
    (hes : Spells us (.body (e' :: es))) : Spells (ts ++ t :: us) (.body (e :: e' :: es))
  | block {o c : Token} {ts : List Token} {es : List Expr} (ho : o.kind = .openCurly)
    (hes : Spells ts (.body es)) (hc : c.kind = .closeCurly) :
    Spells (o :: (ts ++ [c])) (.block (.block es ⟨o.span.start, c.span.stop⟩))
  -- conditionals
  | branch {t : Token} {ts us : List Token} {c x : Expr} (ht : t.kind = .wordIf)
    (hc : Spells ts (.expr .disjunction c)) (hx : Spells us (.block x)) :
    Spells (t :: (ts ++ us)) (.branch (.branch c x none ⟨t.span.start, x.span.stop⟩))
  | branchElse {t u : Token} {ts us vs : List Token} {c x y : Expr} (ht : t.kind = .wordIf)
    (hc : Spells ts (.expr .disjunction c)) (hx : Spells us (.block x)) (hu : u.kind = .wordElse)
    (hy : Spells vs (.block y)) : Spells (t :: (ts ++ (us ++ u :: vs)))
      (.branch (.branch c x (some y) ⟨t.span.start, y.span.stop⟩))
  | branchElseIf {t u : Token} {ts us vs : List Token} {c x y : Expr} (ht : t.kind = .wordIf)
    (hc : Spells ts (.expr .disjunction c)) (hx : Spells us (.block x)) (hu : u.kind = .wordElse)
    (hy : Spells vs (.branch y)) : Spells (t :: (ts ++ (us ++ u :: vs)))
      (.branch (.branch c x (some y) ⟨t.span.start, y.span.stop⟩))
  -- one or more declarations, without a comma at the end
  | declaration {t a : Token} {ts us : List Token} {type? : Option TypeExpr} {e : Expr}
    (ht : t.kind = .identifier) (htype : Spells ts (.ascription .colon type?))
    (ha : a.kind = .assign) (he : Spells us (.expr .disjunction e)) :
    Spells (t :: (ts ++ a :: us)) (.declaration ⟨t.value, type?, e, ⟨t.span.start, e.span.stop⟩⟩)
  | declarationsLast {ts : List Token} {d : Declaration Expr} (hd : Spells ts (.declaration d)) :
    Spells ts (.declarations [d])
  | declarationsCons {ts us : List Token} {c : Token} {d : Declaration Expr}
    {ds : List (Declaration Expr)} (hd : Spells ts (.declaration d)) (hc : c.kind = .comma)
    (hds : Spells us (.declarations ds)) : Spells (ts ++ c :: us) (.declarations (d :: ds))
  | signature {o c : Token} {ts us vs : List Token} {ps : List Parameter}
    {result? : Option TypeExpr} {b : Expr} {start : Position} (ho : o.kind = .openParen)
    (hps : Spells ts (.parameters ps)) (hc : c.kind = .closeParen)
    (hresult : Spells us (.ascription .arrow result?)) (hb : Spells vs (.block b)) :
    Spells (o :: (ts ++ c :: (us ++ vs))) (.signature start ⟨ps, result?, b, ⟨start, b.span.stop⟩⟩)
  | binding {t a semi : Token} {ts us : List Token} {type? : Option TypeExpr} {e : Expr}
    (ht : t.kind = .identifier) (htype : Spells ts (.ascription .colon type?))
    (ha : a.kind = .assign) (he : Spells us (.expr .disjunction e)) (hs : semi.kind = .semicolon) :
    Spells (t :: (ts ++ a :: (us ++ [semi]))) (.binding t.value type? e semi.span.stop)
  -- modules
  | itemProcedure {t n : Token} {ts : List Token} {l : Procedure Expr} (ht : t.kind = .wordProc)
    (hn : n.kind = .identifier) (hl : Spells ts (.signature t.span.start l)) :
    Spells (t :: n :: ts) (.item (.procedure n.value l ⟨t.span.start, l.span.stop⟩))
  | itemConstant {t : Token} {ts : List Token} {name : String} {type? : Option TypeExpr}
    {e : Expr} {stop : Position} (ht : t.kind = .wordConst)
    (hb : Spells ts (.binding name type? e stop)) :
    Spells (t :: ts) (.item (.constant name type? e ⟨t.span.start, stop⟩))
  | itemMutable {t : Token} {ts : List Token} {name : String} {type? : Option TypeExpr}
    {e : Expr} {stop : Position} (ht : t.kind = .wordVar)
    (hb : Spells ts (.binding name type? e stop)) :
    Spells (t :: ts) (.item (.mutable name type? e ⟨t.span.start, stop⟩))
  | itemEntry {t : Token} {ts : List Token} {e : Expr} (ht : t.kind = .wordEntry)
    (he : Spells ts (.block e)) : Spells (t :: ts) (.item (.entry e ⟨t.span.start, e.span.stop⟩))
  | itemsNil : Spells [] (.items [])
  | itemsCons {ts us : List Token} {i : Item} {is : List Item} (hi : Spells ts (.item i))
    (his : Spells us (.items is)) : Spells (ts ++ us) (.items (i :: is))

namespace Power

theorem rank_injective {p q : Power} (h : p.rank = q.rank) : p = q := by
  cases p <;> cases q <;> first | rfl | cases h

theorem rank_le (p : Power) : p.rank ≤ 7 := by
  cases p <;> decide

theorem rank_above (p : Power) : p.above.rank = min (p.rank + 1) 7 := by
  cases p <;> rfl

end Power

theorem BinaryOp.rank_power (op : BinaryOp) : 1 ≤ op.power.rank ∧ op.power.rank ≤ 5 := by
  cases op <;> decide

/-- An expression of a stratum is one of every weaker stratum. -/
theorem Spells.weaken {p q : Power} {ts : List Token} {e : Expr} (h : Spells ts (.expr p e))
    (hle : q.rank ≤ p.rank) : Spells ts (.expr q e) := by
  obtain ⟨n, hn⟩ := Nat.exists_eq_add_of_le hle
  induction n generalizing q with
  | zero =>
    rw [← Power.rank_injective hn]
    exact h
  | succ n ih =>
    have habove := q.rank_above
    have hle := p.rank_le
    refine .weaker (ih ?_ ?_) <;> omega

/-- A token that stands before the end and, if it is a number, has a value of 32 bits. -/
def Token.Readable (t : Token) : Prop :=
  t.kind ≠ .endOfInput ∧ (t.kind = .number → ∃ v, Text.int32? t.value = some v)

theorem Token.Readable.of_unary {t : Token} {op : UnaryOp} (h : UnaryOp.ofKind? t.kind = some op) :
    t.Readable := by
  constructor <;> intro hk <;> rw [hk] at h <;> cases h

theorem Token.Readable.of_binary {t : Token} {op : BinaryOp}
    (h : BinaryOp.ofKind? t.kind = some op) : t.Readable := by
  constructor <;> intro hk <;> rw [hk] at h <;> cases h

theorem Spells.readable {ts : List Token} {x : Phrase} (h : Spells ts x) :
    ∀ t ∈ ts, t.Readable := by
  induction h with
  | unary ht _ ih => exact List.forall_mem_cons.mpr ⟨.of_unary ht, ih⟩
  | binary _ ht _ ihl ihr =>
    exact List.forall_mem_append.mpr ⟨ihl, List.forall_mem_cons.mpr ⟨.of_binary ht, ihr⟩⟩
  | _ => grind [Token.Readable]

end RootedC
