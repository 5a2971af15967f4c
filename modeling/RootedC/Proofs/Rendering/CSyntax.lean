import RootedC.Proofs.Rendering.CTokens
import RootedC.Typing.Operator

/-!
C expressions and statements, as far as generated code uses them. Expressions are read by operator
precedence: what waits for an operand is kept on a stack, and an operator first closes what binds at
least as strongly as itself.
-/
namespace RootedC.C11

inductive UnOp where
  | minus | not | address
  deriving DecidableEq, Repr

inductive Expr where
  | word (name : List Char)
  | number (text : List Char)
  | unary (op : UnOp) (x : Expr)
  /-- A cast to a pointer to the type. -/
  | cast (type : List Char) (x : Expr)
  | binary (op : BinaryOp) (left right : Expr)
  | call (callee : Expr) (arguments : List Expr)
  | index (array slot : Expr)

def UnOp.spelling : UnOp → List Char
  | minus => ['-']
  | not => ['!']
  | address => ['&']

def unOp? (m : List Char) : Option UnOp := [UnOp.minus, .not, .address].find? (·.spelling = m)

def binaryOp? (m : List Char) : Option BinaryOp := BinaryOp.all.find? (·.symbol.toList = m)

/-- The levels of the C grammar: 1 is the logical disjunction, 10 the product. -/
def precedence : BinaryOp → Nat
  | .or => 1
  | .and => 2
  | .eq | .ne => 6
  | .lt | .le | .gt | .ge => 7
  | .add | .sub => 9
  | .mul | .div | .mod => 10

/-- The types that generated code names. -/
def typeNames : List (List Char) :=
  ["int32_t", "bool", "AjisaiString", "AjisaiUnit", "AjisaiObject", "ProcFrame"].map String.toList

def keywords : List (List Char) := ["if", "else", "return"].map String.toList

/-- A word that stands for a value or a procedure. -/
def isName (w : List Char) : Bool := !typeNames.contains w && !keywords.contains w

/-- What waits for an operand. -/
inductive Frame where
  | unary (op : UnOp)
  | cast (type : List Char)
  | binary (op : BinaryOp) (left : Expr)
  | paren
  /-- A call, with the arguments before. -/
  | arguments (callee : Expr) (done : List Expr)
  | index (array : Expr)

inductive State where
  /-- An operand comes next. -/
  | operand (stack : List Frame)
  /-- An operand was read, and something that goes on or ends the expression comes next. -/
  | operator (stack : List Frame) (x : Expr)
  /-- A type stands behind a parenthesis. -/
  | castType (stack : List Frame) (type : List Char)
  | castPointer (stack : List Frame) (type : List Char)

/-- Closes what binds at least as strongly as an operator of the level. Unary operators and casts
bind more strongly than any binary operator. -/
def close (level : Nat) : List Frame → Expr → List Frame × Expr
  | .unary op :: stack, x => close level stack (.unary op x)
  | .cast type :: stack, x => close level stack (.cast type x)
  | .binary op left :: stack, x =>
    if level ≤ precedence op then close level stack (.binary op left x)
    else (.binary op left :: stack, x)
  | stack, x => (stack, x)

namespace State

/-- An opening parenthesis, a unary operator or the end of an empty argument list, where an operand
is due. -/
def stepOperand (stack : List Frame) (m : List Char) : Option State :=
  match unOp? m with
  | some op => some (.operand (.unary op :: stack))
  | none =>
    if m = ['('] then some (.operand (.paren :: stack))
    else if m = [')'] then
      match stack with
      | .arguments callee [] :: stack => some (.operator stack (.call callee []))
      | _ => none
    else none

/-- A closing parenthesis, behind an operand that everything up to the last opening one is in. -/
def closeParen : List Frame × Expr → Option State
  | (.paren :: stack, x) => some (.operator stack x)
  | (.arguments callee done :: stack, x) => some (.operator stack (.call callee (done ++ [x])))
  | _ => none

def closeIndex : List Frame × Expr → Option State
  | (.index array :: stack, x) => some (.operator stack (.index array x))
  | _ => none

def nextArgument : List Frame × Expr → Option State
  | (.arguments callee done :: stack, x) =>
    some (.operand (.arguments callee (done ++ [x]) :: stack))
  | _ => none

/-- A punctuator behind an operand. -/
def stepOperator (stack : List Frame) (x : Expr) (m : List Char) : Option State :=
  if m = ['('] then some (.operand (.arguments x [] :: stack))
  else if m = ['['] then some (.operand (.index x :: stack))
  else if m = [')'] then closeParen (close 0 stack x)
  else if m = [']'] then closeIndex (close 0 stack x)
  else if m = [','] then nextArgument (close 0 stack x)
  else (binaryOp? m).map fun op =>
    let (stack, x) := close (precedence op) stack x
    .operand (.binary op x :: stack)

def step : State → Tok → Option State
  | .operand stack, .word w =>
    if isName w then some (.operator stack (.word w))
    else if typeNames.contains w then
      match stack with
      | .paren :: stack => some (.castType stack w)
      | _ => none
    else none
  | .operand stack, .number n => some (.operator stack (.number n))
  | .operand stack, .mark m => stepOperand stack m
  | .operator stack x, .mark m => stepOperator stack x m
  | .castType stack type, .mark m => if m = ['*'] then some (.castPointer stack type) else none
  | .castPointer stack type, .mark m =>
    if m = [')'] then some (.operand (.cast type :: stack)) else none
  | _, _ => none

/-- The expression that was read, if nothing is open. -/
def finish : State → Option Expr
  | .operator stack x =>
    match close 0 stack x with
    | ([], x) => some x
    | _ => none
  | _ => none

def run (s : State) (ts : List Tok) : Option State := ts.foldlM step s

theorem run_append {s : State} {ts us : List Tok} :
    s.run (ts ++ us) = (s.run ts).bind (·.run us) := by
  simp [run, List.foldlM_append]

end State

/-- The longest expression that a token list starts with, from a state of reading on. -/
def takeFrom : State → List Tok → Option (Expr × List Tok)
  | s, [] => s.finish.map (·, [])
  | s, t :: ts =>
    match s.step t with
    | some next => takeFrom next ts
    | none => s.finish.map (·, t :: ts)

def Expr.take? (ts : List Tok) : Option (Expr × List Tok) := takeFrom (.operand []) ts

theorem takeFrom_of_run {s s' : State} {ts : List Tok} (h : s.run ts = some s') (rest : List Tok) :
    takeFrom s (ts ++ rest) = takeFrom s' rest := by
  induction ts generalizing s with
  | nil =>
    cases h
    rfl
  | cons t ts ih =>
    cases hstep : s.step t with
    | none => simp [State.run, hstep] at h
    | some next =>
      have hnext : next.run ts = some s' := by simpa [State.run, hstep] using h
      rw [List.cons_append, takeFrom, hstep]
      exact ih hnext

theorem length_takeFrom {s : State} {ts rest : List Tok} {x : Expr}
    (h : takeFrom s ts = some (x, rest)) : rest.length ≤ ts.length := by
  induction ts generalizing s with
  | nil =>
    obtain ⟨y, -, hy⟩ := Option.map_eq_some_iff.mp h
    cases hy
    exact Nat.le_refl _
  | cons t ts ih =>
    rw [takeFrom] at h
    split at h
    · exact Nat.le_succ_of_le (ih h)
    · obtain ⟨y, -, hy⟩ := Option.map_eq_some_iff.mp h
      cases hy
      exact Nat.le_refl _

/-- Token lists divided by commas. -/
def listed : List (List Tok) → List Tok
  | [] => []
  | [a] => a
  | a :: b :: more => a ++ .mark [','] :: listed (b :: more)

inductive Stmt where
  | declare (type : List Char) (pointer : Bool) (name : List Char) (value? : Option Expr)
  /-- An array with all its elements zero. -/
  | table (type : List Char) (pointer : Bool) (name : List Char) (size : Expr)
  | assign (target value : Expr)
  | eval (x : Expr)
  | ret (x : Expr)
  | branch (condition : Expr) (thenBody elseBody : List Stmt)

/-- The pieces that a block is written with: whole statements and the braces of branches. -/
inductive Piece where
  | simple (s : Stmt)
  | branch (condition : Expr)
  | otherwise
  | close

/-- The tokens behind a punctuator. -/
def skip? (m : List Char) : List Tok → Option (List Tok)
  | .mark n :: rest => if n = m then some rest else none
  | _ => none

def name? : List Tok → Option (List Char × List Tok)
  | .word w :: rest => if isName w then some (w, rest) else none
  | _ => none

/-- The tokens behind a number that is written so. -/
def numeral? (n : List Char) : List Tok → Option (List Tok)
  | .number k :: rest => if k = n then some rest else none
  | _ => none

namespace Piece

/-- An expression up to a semicolon. -/
def ended? (ts : List Tok) : Option (Expr × List Tok) := do
  let (x, ts) ← Expr.take? ts
  let ts ← skip? [';'] ts
  return (x, ts)

/-- What follows `if`. -/
def condition? (ts : List Tok) : Option (Piece × List Tok) := do
  let ts ← skip? ['('] ts
  let (x, ts) ← Expr.take? ts
  let ts ← skip? [')'] ts
  let ts ← skip? ['\x7b'] ts
  return (.branch x, ts)

/-- What follows the type and the name of a variable. -/
def initial? (type : List Char) (pointer : Bool) (name : List Char) (ts : List Tok) :
    Option (Piece × List Tok) :=
  match skip? [';'] ts, skip? ['='] ts with
  | some ts, _ => some (.simple (.declare type pointer name none), ts)
  | none, some ts => (ended? ts).map fun (x, ts) => (.simple (.declare type pointer name x), ts)
  | none, none => do
    let ts ← skip? ['['] ts
    let (size, ts) ← Expr.take? ts
    let ts ← skip? [']'] ts
    let ts ← skip? ['='] ts
    let ts ← skip? ['\x7b'] ts
    let ts ← numeral? ['0'] ts
    let ts ← skip? ['\x7d'] ts
    let ts ← skip? [';'] ts
    return (.simple (.table type pointer name size), ts)

/-- What follows the type of a variable. -/
def declared? (type : List Char) (ts : List Tok) : Option (Piece × List Tok) :=
  match skip? ['*'] ts with
  | some ts => (name? ts).bind fun (name, ts) => initial? type true name ts
  | none => (name? ts).bind fun (name, ts) => initial? type false name ts

/-- An expression or an assignment. -/
def evaluated? (ts : List Tok) : Option (Piece × List Tok) := do
  let (x, ts) ← Expr.take? ts
  match skip? ['='] ts with
  | some ts => (ended? ts).map fun (y, ts) => (.simple (.assign x y), ts)
  | none => (skip? [';'] ts).map fun ts => (.simple (.eval x), ts)

/-- The piece that a token list starts with. -/
def take? (t : Tok) (ts : List Tok) : Option (Piece × List Tok) :=
  if t = .mark ['\x7d'] then some (.close, ts)
  else if t = .word "else".toList then (skip? ['\x7b'] ts).map fun ts => (.otherwise, ts)
  else if t = .word "if".toList then condition? ts
  else if t = .word "return".toList then
    (ended? ts).map fun (x, ts) => (.simple (.ret x), ts)
  else
    match t with
    | .word w => if typeNames.contains w then declared? w ts else evaluated? (t :: ts)
    | _ => evaluated? (t :: ts)

end Piece

theorem length_skip? {m : List Char} {ts rest : List Tok} (h : skip? m ts = some rest) :
    rest.length < ts.length := by
  unfold skip? at h
  split at h
  · split at h
    · cases h
      exact Nat.lt_succ_self _
    · cases h
  · cases h

theorem length_numeral? {n : List Char} {ts rest : List Tok} (h : numeral? n ts = some rest) :
    rest.length < ts.length := by
  unfold numeral? at h
  split at h
  · split at h
    · cases h
      exact Nat.lt_succ_self _
    · cases h
  · cases h

theorem length_name? {ts rest : List Tok} {w : List Char} (h : name? ts = some (w, rest)) :
    rest.length < ts.length := by
  unfold name? at h
  split at h
  · split at h
    · cases h
      exact Nat.lt_succ_self _
    · cases h
  · cases h

theorem length_take? {ts rest : List Tok} {x : Expr} (h : Expr.take? ts = some (x, rest)) :
    rest.length ≤ ts.length := length_takeFrom h

namespace Piece

variable {ts rest : List Tok} {p : Piece}

theorem length_ended? {x : Expr} (h : ended? ts = some (x, rest)) : rest.length < ts.length := by
  simp only [ended?, Option.bind_eq_bind, Option.bind_eq_some_iff, Option.pure_def,
    Option.some.injEq, Prod.mk.injEq, Prod.exists] at h
  obtain ⟨y, us, hx, vs, hv, -, rfl⟩ := h
  exact Nat.lt_of_lt_of_le (length_skip? hv) (length_take? hx)

theorem length_condition? (h : condition? ts = some (p, rest)) : rest.length < ts.length := by
  simp only [condition?, Option.bind_eq_bind, Option.bind_eq_some_iff, Option.pure_def,
    Option.some.injEq, Prod.mk.injEq, Prod.exists] at h
  obtain ⟨us, hu, x, vs, hx, ws, hw, zs, hz, -, rfl⟩ := h
  have := length_skip? hu
  have := length_take? hx
  have := length_skip? hw
  have := length_skip? hz
  omega

theorem length_initial? {type name : List Char} {pointer : Bool}
    (h : initial? type pointer name ts = some (p, rest)) : rest.length < ts.length := by
  unfold initial? at h
  split at h
  · next us hu =>
    cases h
    exact length_skip? hu
  · next us _ hu =>
    obtain ⟨⟨x, vs⟩, hx, hrest⟩ := Option.map_eq_some_iff.mp h
    cases hrest
    exact Nat.lt_trans (length_ended? hx) (length_skip? hu)
  · simp only [Option.bind_eq_bind, Option.bind_eq_some_iff, Option.pure_def, Option.some.injEq,
      Prod.mk.injEq, Prod.exists] at h
    obtain ⟨a, ha, x, b, hb, c, hc, d, hd, e, he, f, hf, g, hg, i, hi, -, rfl⟩ := h
    have := length_skip? ha
    have := length_take? hb
    have := length_skip? hc
    have := length_skip? hd
    have := length_skip? he
    have := length_numeral? hf
    have := length_skip? hg
    have := length_skip? hi
    omega

theorem length_declared? {type : List Char} (h : declared? type ts = some (p, rest)) :
    rest.length < ts.length := by
  unfold declared? at h
  split at h
  · next us hu =>
    obtain ⟨⟨w, vs⟩, hw, hrest⟩ := Option.bind_eq_some_iff.mp h
    have := length_skip? hu
    have := length_name? hw
    have := length_initial? hrest
    omega
  · obtain ⟨⟨w, vs⟩, hw, hrest⟩ := Option.bind_eq_some_iff.mp h
    exact Nat.lt_trans (length_initial? hrest) (length_name? hw)

theorem length_evaluated? (h : evaluated? ts = some (p, rest)) : rest.length < ts.length := by
  simp only [evaluated?, Option.bind_eq_bind, Option.bind_eq_some_iff, Prod.exists] at h
  obtain ⟨x, us, hx, h⟩ := h
  have hle := C11.length_take? hx
  split at h
  · next vs hv =>
    obtain ⟨⟨y, ws⟩, hy, hrest⟩ := Option.map_eq_some_iff.mp h
    cases hrest
    exact ((length_ended? hy).trans (length_skip? hv)).trans_le hle
  · obtain ⟨vs, hv, hrest⟩ := Option.map_eq_some_iff.mp h
    cases hrest
    exact (length_skip? hv).trans_le hle

theorem length_take? {t : Tok} (h : take? t ts = some (p, rest)) :
    rest.length < (t :: ts).length := by
  unfold take? at h
  split at h
  · cases h
    exact Nat.lt_succ_self _
  split at h
  · obtain ⟨us, hu, hrest⟩ := Option.map_eq_some_iff.mp h
    cases hrest
    exact Nat.lt_succ_of_lt (length_skip? hu)
  split at h
  · exact Nat.lt_succ_of_lt (length_condition? h)
  split at h
  · obtain ⟨⟨x, us⟩, hx, hrest⟩ := Option.map_eq_some_iff.mp h
    cases hrest
    exact Nat.lt_succ_of_lt (length_ended? hx)
  split at h
  · split at h
    · exact Nat.lt_succ_of_lt (length_declared? h)
    · exact length_evaluated? h
  · exact length_evaluated? h

end Piece

/-- The pieces of a token list. -/
def pieces : List Tok → Option (List Piece)
  | [] => some []
  | t :: ts =>
    match _h : Piece.take? t ts with
    | some (p, rest) => (pieces rest).map (p :: ·)
    | none => none
termination_by ts => ts.length
decreasing_by exact Piece.length_take? _h

/-- A branch one of whose blocks is being read, with the statements before it. -/
inductive Block where
  | thenBody (condition : Expr) (before : List Stmt)
  | elseBody (condition : Expr) (thenBody before : List Stmt)

/-- The open blocks, and what was read in the innermost one. -/
inductive Layout where
  | body (blocks : List Block) (done : List Stmt)
  /-- The first block of a branch was closed, and the second one comes next. -/
  | between (blocks : List Block) (condition : Expr) (thenBody before : List Stmt)

def Layout.step : Layout → Piece → Option Layout
  | .body blocks done, .simple s => some (.body blocks (done ++ [s]))
  | .body blocks done, .branch condition => some (.body (.thenBody condition done :: blocks) [])
  | .body (.thenBody condition before :: blocks) done, .close =>
    some (.between blocks condition done before)
  | .between blocks condition thenBody before, .otherwise =>
    some (.body (.elseBody condition thenBody before :: blocks) [])
  | .body (.elseBody condition thenBody before :: blocks) done, .close =>
    some (.body blocks (before ++ [.branch condition thenBody done]))
  | _, _ => none

def Layout.run (l : Layout) (ps : List Piece) : Option Layout := ps.foldlM Layout.step l

/-- The blocks and statements that a token list is read as, from a layout on. -/
def layout? (l : Layout) (ts : List Tok) : Option Layout := (pieces ts).bind l.run

/-- The statements of a token list, if every block is closed. -/
def statements? (ts : List Tok) : Option (List Stmt) :=
  match layout? (.body [] []) ts with
  | some (.body [] done) => some done
  | _ => none

end RootedC.C11
