import RootedC.Proofs.Rendering.CReading

/-!
Operands as C expressions. The text of an operand is read as its tokens in front of anything that
does not continue a number, the tokens are read as one C expression wherever an operand is due, and
the expression stands for that operand and for no other one.
-/
namespace RootedC

open Pattern Text C11

namespace C11

/-- The argument that hands the frame of the caller over. -/
def frameArgument : Expr := .unary .address (.word "frame".toList)

def Expr.isFrame : Expr → Bool
  | .unary .address (.word w) => w == "frame".toList
  | _ => false

namespace Expr

open Code

/-- The builtin that a word names. -/
def builtin? (w : List Char) : Option String :=
  (strip ['a', 'j', 'i', 's', 'a', 'i', '_'] w).map String.ofList

def ofWord? (w : List Char) : Option Operand :=
  if w = ['t', 'r', 'u', 'e'] then some (.boolean true)
  else if w = ['f', 'a', 'l', 's', 'e'] then some (.boolean false)
  else
    match builtin? w, strip ['u', 's', 'e', 'r', 'd', 'e', 'f', '_'] w with
    | some name, _ => some (.builtin name)
    | none, some name => some (.global (String.ofList name))
    | none, none => (Var.ofWord? w).map .load

def called? (w : List Char) (arguments : List Operand) : Option Operand :=
  (builtin? w).map fun name => .callBuiltin name arguments

def calledWithFrame? (w : List Char) (arguments : List Operand) : Option Operand :=
  match builtin? w with
  | some name => some (.callBuiltinWithFrame name arguments)
  | none => (Name.ofWord? w).map fun name => .callProcedure name arguments

/-- The place in the string table of the literal that a word names. -/
def text? (w : List Char) : Option Nat := (strip ['s', 't', 'r', 'l', 'i', 't'] w).bind natural?

mutual

/-- The operand that an expression stands for. -/
def operand? : Expr → Option Operand
  | .word w => ofWord? w
  | .number n => (natural? n).map fun k : Nat => .integer k
  | .unary .minus x => x.operand?.map .negate
  | .unary .not x => x.operand?.map .not
  | .unary .address _ => none
  | .cast type (.unary .address (.word w)) =>
    if type = "AjisaiString".toList then (text? w).map .text else none
  | .cast _ _ => none
  | .binary op left right => do
    let left ← left.operand?
    let right ← right.operand?
    return .binary op left right
  | .call (.word w) [] => called? w []
  | .call (.word w) (x :: more) =>
    if x.isFrame then (operands? more).bind (calledWithFrame? w)
    else (operands? (x :: more)).bind (called? w)
  | .call _ _ => none
  | .index _ _ => none

def operands? : List Expr → Option (List Operand)
  | [] => some []
  | x :: more => do
    let a ← x.operand?
    let more ← operands? more
    return a :: more

end

end Expr

end C11

namespace Code

def isIdentifier (name : String) : Bool := isWord name.toList

/-- Named by an identifier, if at all. -/
def Var.isReadable : Var → Bool
  | named _ name => isIdentifier name
  | temporary _ _ => true

def Name.isReadable : Name → Bool
  | user name => isIdentifier name
  | literal _ => true

namespace Operand

mutual

/-- All names are identifiers and all integers are written without a sign. -/
def isReadable : Operand → Bool
  | builtin name => isIdentifier name
  | global name => isIdentifier name
  | load source => source.isReadable
  | callBuiltin name arguments => isIdentifier name && areReadable arguments
  | callBuiltinWithFrame name arguments => isIdentifier name && areReadable arguments
  | callProcedure name arguments => name.isReadable && areReadable arguments
  | integer value => decide (0 ≤ value)
  | boolean _ => true
  | text _ => true
  | negate operand => operand.isReadable
  | not operand => operand.isReadable
  | binary _ left right => left.isReadable && right.isReadable

def areReadable : List Operand → Bool
  | [] => true
  | a :: more => a.isReadable && areReadable more

end

def builtinWord (name : String) : List Char := ("ajisai_" ++ name).toList

def globalWord (name : String) : List Char := ("userdef_" ++ name).toList

def textWord (index : Nat) : List Char := ("strlit" ++ index.repr).toList

def booleanWord (value : Bool) : List Char := if value then "true".toList else "false".toList

/-- The tokens of the frame that is handed over. -/
def frameTokens : List Tok := [Tok.mark ['&'], .word "frame".toList]

mutual

def tokens : Operand → List Tok
  | builtin name => [.word (builtinWord name)]
  | global name => [.word (globalWord name)]
  | load source => [.word source.render.toList]
  | callBuiltin name arguments =>
    Tok.word (builtinWord name) :: Tok.mark ['('] ::
      (listed (tokensAll arguments) ++ [Tok.mark [')']])
  | callBuiltinWithFrame name arguments =>
    Tok.word (builtinWord name) :: Tok.mark ['('] ::
      (listed (frameTokens :: tokensAll arguments) ++ [Tok.mark [')']])
  | callProcedure name arguments =>
    Tok.word name.render.toList :: Tok.mark ['('] ::
      (listed (frameTokens :: tokensAll arguments) ++ [Tok.mark [')']])
  | integer value => [.number (Nat.toDigits 10 value.toNat)]
  | boolean value => [.word (booleanWord value)]
  | text index =>
    [.mark ['('], .mark ['('], .word "AjisaiString".toList, .mark ['*'], .mark [')'], .mark ['&'],
      .word (textWord index), .mark [')']]
  | negate operand => Tok.mark ['('] :: Tok.mark ['-'] :: (operand.tokens ++ [Tok.mark [')']])
  | not operand => Tok.mark ['('] :: Tok.mark ['!'] :: (operand.tokens ++ [Tok.mark [')']])
  | binary op left right =>
    Tok.mark ['('] ::
      (left.tokens ++ Tok.mark op.symbol.toList :: (right.tokens ++ [Tok.mark [')']]))

def tokensAll : List Operand → List (List Tok)
  | [] => []
  | a :: more => a.tokens :: tokensAll more

end

mutual

/-- The C expression of an operand. -/
def toC : Operand → C11.Expr
  | builtin name => .word (builtinWord name)
  | global name => .word (globalWord name)
  | load source => .word source.render.toList
  | callBuiltin name arguments => .call (.word (builtinWord name)) (toCAll arguments)
  | callBuiltinWithFrame name arguments =>
    .call (.word (builtinWord name)) (frameArgument :: toCAll arguments)
  | callProcedure name arguments =>
    .call (.word name.render.toList) (frameArgument :: toCAll arguments)
  | integer value => .number (Nat.toDigits 10 value.toNat)
  | boolean value => .word (booleanWord value)
  | text index => .cast "AjisaiString".toList (.unary .address (.word (textWord index)))
  | negate operand => .unary .minus operand.toC
  | not operand => .unary .not operand.toC
  | binary op left right => .binary op left.toC right.toC

def toCAll : List Operand → List C11.Expr
  | [] => []
  | a :: more => a.toC :: toCAll more

end

end Operand

theorem isWordPart_of_isIdentifier {name : String} (h : isIdentifier name = true) :
    name.toList.all isWordPart = true :=
  (Bool.and_eq_true_iff.mp h).2

theorem Var.isWord_render {v : Var} (h : v.isReadable = true) : isWord v.render.toList = true := by
  cases v with
  | named scope name =>
    have htext : (Var.named scope name).render.toList =
        ['e', 'n', 'v'] ++ (Nat.toDigits 10 scope ++ ("_var_".toList ++ name.toList)) := by
      simp [render]
    rw [htext]
    refine isWord_append rfl ?_
    rw [List.all_append, List.all_append, isWordPart_toDigits, isWordPart_of_isIdentifier h]
    rfl
  | temporary scope index =>
    have htext : (Var.temporary scope index).render.toList =
        ['e', 'n', 'v'] ++ (Nat.toDigits 10 scope ++ ("_tmp".toList ++ Nat.toDigits 10 index)) := by
      simp [render]
    rw [htext]
    refine isWord_append rfl ?_
    rw [List.all_append, List.all_append, isWordPart_toDigits, isWordPart_toDigits]
    rfl

theorem Name.isWord_render {n : Name} (h : n.isReadable = true) :
    isWord n.render.toList = true := by
  cases n with
  | user name =>
    have htext : (Name.user name).render.toList = "userdef_".toList ++ name.toList := by
      simp [render]
    rw [htext]
    exact isWord_append rfl (isWordPart_of_isIdentifier h)
  | literal scope =>
    have htext : (Name.literal scope).render.toList =
        "userdef_".toList ++ (Nat.toDigits 10 scope ++ "_literal".toList) := by
      simp [render]
    rw [htext]
    refine isWord_append rfl ?_
    rw [List.all_append, isWordPart_toDigits]
    rfl

theorem Name.isPlain_of_isReadable {n : Name} (h : n.isReadable = true) : n.isPlain = true := by
  cases n with
  | literal scope => rfl
  | user name => exact isPlain_of_word (Bool.and_eq_true_iff.mp h).1

theorem Var.isName_render (v : Var) : isName v.render.toList = true := by
  have htext : ∃ rest, v.render.toList = 'e' :: 'n' :: 'v' :: rest := by
    cases v <;> simp [render]
  obtain ⟨rest, h⟩ := htext
  rw [h]
  rfl

theorem Name.isName_render (n : Name) : isName n.render.toList = true := by
  have htext : ∃ rest, n.render.toList = 'u' :: 's' :: rest := by
    cases n <;> simp [render]
  obtain ⟨rest, h⟩ := htext
  rw [h]
  rfl

namespace Operand

theorem builtinWord_eq (name : String) :
    builtinWord name = ['a', 'j', 'i', 's', 'a', 'i', '_'] ++ name.toList := by
  simp [builtinWord]

theorem globalWord_eq (name : String) :
    globalWord name = ['u', 's', 'e', 'r', 'd', 'e', 'f', '_'] ++ name.toList := by
  simp [globalWord]

theorem textWord_eq (index : Nat) :
    textWord index = ['s', 't', 'r', 'l', 'i', 't'] ++ Nat.toDigits 10 index := by
  simp [textWord]

theorem isWord_builtinWord {name : String} (h : isIdentifier name = true) :
    isWord (builtinWord name) = true := by
  rw [builtinWord_eq]
  exact isWord_append rfl (isWordPart_of_isIdentifier h)

theorem isWord_globalWord {name : String} (h : isIdentifier name = true) :
    isWord (globalWord name) = true := by
  rw [globalWord_eq]
  exact isWord_append rfl (isWordPart_of_isIdentifier h)

theorem isWord_textWord (index : Nat) : isWord (textWord index) = true := by
  rw [textWord_eq]
  exact isWord_append rfl (isWordPart_toDigits index)

theorem isName_builtinWord (name : String) : isName (builtinWord name) = true := by
  rw [builtinWord_eq]
  rfl

theorem isName_globalWord (name : String) : isName (globalWord name) = true := by
  rw [globalWord_eq]
  rfl

theorem isName_textWord (index : Nat) : isName (textWord index) = true := by
  rw [textWord_eq]
  rfl

section Texts

variable (name : String) (arguments : List Operand)

@[simp] theorem render_builtin : (builtin name).render = "ajisai_" ++ name := rfl

@[simp] theorem render_global : (global name).render = "userdef_" ++ name := rfl

@[simp] theorem render_load (source : Var) : (load source).render = source.render := rfl

@[simp] theorem render_callBuiltin : (callBuiltin name arguments).render =
    "ajisai_" ++ name ++ "(" ++ commas (renderAll arguments) ++ ")" := rfl

@[simp] theorem render_callBuiltinWithFrame : (callBuiltinWithFrame name arguments).render =
    "ajisai_" ++ name ++ "(" ++ commas ("&frame" :: renderAll arguments) ++ ")" := rfl

@[simp] theorem render_callProcedure (name : Name) : (callProcedure name arguments).render =
    name.render ++ "(" ++ commas ("&frame" :: renderAll arguments) ++ ")" := rfl

@[simp] theorem render_integer (value : Int) : (integer value).render = value.repr := rfl

@[simp] theorem render_boolean (value : Bool) :
    (boolean value).render = if value then "true" else "false" := by
  cases value <;> rfl

@[simp] theorem render_text (index : Nat) :
    (text index).render = "((AjisaiString *)&strlit" ++ index.repr ++ ")" := rfl

@[simp] theorem render_negate (operand : Operand) :
    (negate operand).render = "(-" ++ operand.render ++ ")" := rfl

@[simp] theorem render_not (operand : Operand) :
    (not operand).render = "(!" ++ operand.render ++ ")" := rfl

@[simp] theorem render_binary (op : BinaryOp) (left right : Operand) :
    (binary op left right).render =
      "(" ++ left.render ++ " " ++ op.symbol ++ " " ++ right.render ++ ")" := rfl

end Texts

/-- No operand continues a punctuator in front of it. -/
theorem head_render {v : Operand} (h : v.isReadable = true) (rest : List Char) :
    (v.render.toList ++ rest).head?.all (fun c => !isMarkRest c) = true := by
  cases v with
  | load source => cases source <;> simp [Var.render, isMarkRest]
  | callProcedure name arguments => cases name <;> simp [Name.render, isMarkRest]
  | boolean value => cases value <;> simp [isMarkRest]
  | integer value =>
    obtain ⟨n, rfl⟩ := Int.eq_ofNat_of_zero_le (of_decide_eq_true h)
    have hdigit := isDigit_head?_toDigits n rest
    have htext : (integer n).render.toList = Nat.toDigits 10 n := by simp [Int.repr]
    rw [htext]
    cases hhead : (Nat.toDigits 10 n ++ rest).head? with
    | none => rfl
    | some c =>
      rw [hhead] at hdigit
      have hc : isMarkRest c = false := isMarkRest_of_isDigit hdigit
      rw [Option.all_some, hc]
      rfl
  | _ => simp [isMarkRest]

theorem reads_frame {rest : List Char} (hrest : stops rest = true) :
    Reads "&frame".toList frameTokens rest :=
  Reads.alone (p := ['&']) (by decide) (by decide) rfl (Reads.ofWord rfl hrest)

mutual

theorem reads : (v : Operand) → v.isReadable = true → ∀ {rest}, stops rest = true →
    Reads v.render.toList v.tokens rest
  | builtin name, h, rest, hrest => by
    rw [tokens]
    exact Reads.ofWord (isWord_builtinWord h) hrest
  | global name, h, rest, hrest => by
    rw [tokens]
    exact Reads.ofWord (isWord_globalWord h) hrest
  | load source, h, rest, hrest => Reads.ofWord (Var.isWord_render h) hrest
  | callBuiltin name arguments, h, rest, hrest => by
    rw [isReadable, Bool.and_eq_true] at h
    have htext : (callBuiltin name arguments).render.toList =
        builtinWord name ++ '(' :: ((commas (renderAll arguments)).toList ++ [')']) := by
      simp [builtinWord]
    rw [htext, tokens]
    exact Reads.append (Reads.ofWord (isWord_builtinWord h.1) rfl)
      (Reads.solo rfl ((Reads.commas (readsAll arguments h.2) rfl).append (Reads.solo rfl .nil)))
  | callBuiltinWithFrame name arguments, h, rest, hrest => by
    rw [isReadable, Bool.and_eq_true] at h
    have htext : (callBuiltinWithFrame name arguments).render.toList =
        builtinWord name ++
          '(' :: ((commas ("&frame" :: renderAll arguments)).toList ++ [')']) := by
      simp [builtinWord]
    rw [htext, tokens]
    exact Reads.append (Reads.ofWord (isWord_builtinWord h.1) rfl)
      (Reads.solo rfl ((Reads.commas (.cons reads_frame (readsAll arguments h.2)) rfl).append
        (Reads.solo rfl .nil)))
  | callProcedure name arguments, h, rest, hrest => by
    rw [isReadable, Bool.and_eq_true] at h
    have htext : (callProcedure name arguments).render.toList =
        name.render.toList ++
          '(' :: ((commas ("&frame" :: renderAll arguments)).toList ++ [')']) := by
      simp
    rw [htext, tokens]
    exact Reads.append (Reads.ofWord (Name.isWord_render h.1) rfl)
      (Reads.solo rfl ((Reads.commas (.cons reads_frame (readsAll arguments h.2)) rfl).append
        (Reads.solo rfl .nil)))
  | integer value, h, rest, hrest => by
    obtain ⟨n, rfl⟩ := Int.eq_ofNat_of_zero_le (of_decide_eq_true h)
    have htext : (integer n).render.toList = Nat.toDigits 10 n := by simp [Int.repr]
    rw [htext, tokens]
    exact Reads.digits n hrest
  | boolean value, _, rest, hrest => by
    cases value
    · exact Reads.ofWord (w := "false".toList) rfl hrest
    · exact Reads.ofWord (w := "true".toList) rfl hrest
  | text index, _, rest, hrest => by
    have htext : (text index).render.toList =
        '(' :: '(' :: ("AjisaiString".toList ++ ' ' :: (['*'] ++ ')' :: (['&'] ++
          (textWord index ++ [')'])))) := by
      simp [textWord]
    rw [htext, tokens]
    have hword : Reads (textWord index ++ [')']) [.word (textWord index), Tok.mark [')']] rest :=
      Reads.append (Reads.ofWord (isWord_textWord index) rfl) (Reads.solo rfl .nil)
    have hnext : (textWord index ++ [')'] ++ rest).head?.all (fun c => !isMarkRest c) = true := by
      rw [textWord_eq]
      rfl
    have haddress := Reads.alone (p := ['&']) (by decide) (by decide) hnext hword
    have hstar := Reads.alone (p := ['*']) (by decide) (by decide) rfl
      (Reads.solo (c := ')') rfl haddress)
    exact Reads.solo rfl (Reads.solo rfl
      (Reads.append (Reads.ofWord rfl rfl) (Reads.spaced rfl hstar)))
  | negate operand, h, rest, hrest => by
    have htext : (negate operand).render.toList =
        '(' :: (['-'] ++ (operand.render.toList ++ [')'])) := by simp
    rw [htext, tokens]
    refine Reads.solo rfl (Reads.alone (by decide) (by decide) ?_
      ((reads operand h rfl).append (Reads.solo rfl .nil)))
    rw [List.append_assoc]
    exact head_render (v := operand) h _
  | not operand, h, rest, hrest => by
    have htext : (not operand).render.toList =
        '(' :: (['!'] ++ (operand.render.toList ++ [')'])) := by simp
    rw [htext, tokens]
    refine Reads.solo rfl (Reads.alone (by decide) (by decide) ?_
      ((reads operand h rfl).append (Reads.solo rfl .nil)))
    rw [List.append_assoc]
    exact head_render (v := operand) h _
  | binary op left right, h, rest, hrest => by
    rw [isReadable, Bool.and_eq_true] at h
    have htext : (binary op left right).render.toList =
        '(' :: (left.render.toList ++ ' ' :: (op.symbol.toList ++ ' ' ::
          (right.render.toList ++ [')']))) := by
      simp
    have hop : op.symbol.toList ∈ punctuators ∧ op.symbol.toList.head? ≠ some '.' := by
      cases op <;> decide
    rw [htext, tokens]
    exact Reads.solo rfl ((reads left h.1 rfl).append (Reads.spaced rfl
      (Reads.alone hop.1 hop.2 rfl (Reads.spaced rfl
        ((reads right h.2 rfl).append (Reads.solo rfl .nil))))))

theorem readsAll : (vs : List Operand) → areReadable vs = true →
    List.Forall₂ (fun s ts => ∀ {rest}, stops rest = true → Reads s.toList ts rest)
      (renderAll vs) (tokensAll vs)
  | [], _ => .nil
  | v :: vs, h => by
    rw [areReadable, Bool.and_eq_true] at h
    exact .cons (reads v h.1) (readsAll vs h.2)

end

theorem parses_frame : ParsesOpen frameTokens frameArgument :=
  fun stack => ⟨.unary .address :: stack, .word "frame".toList, rfl, fun _ => rfl⟩

theorem parses_text (index : Nat) : Parses (text index).tokens (text index).toC := by
  intro stack
  have hopen : (State.operand stack).run [.mark ['('], .mark ['('], .word "AjisaiString".toList,
      .mark ['*'], .mark [')'], .mark ['&']] =
        some (.operand (.unary .address :: .cast "AjisaiString".toList :: .paren :: stack)) := rfl
  change (State.operand stack).run ([Tok.mark ['('], .mark ['('], .word "AjisaiString".toList,
    .mark ['*'], .mark [')'], .mark ['&']] ++ ([.word (textWord index)] ++ [.mark [')']])) = _
  rw [State.run_append, hopen, Option.bind_some, State.run_append,
    Parses.word (isName_textWord index), Option.bind_some]
  rfl

mutual

theorem parses : (v : Operand) → Parses v.tokens v.toC
  | builtin name => .word (isName_builtinWord name)
  | global name => .word (isName_globalWord name)
  | load source => .word source.isName_render
  | callBuiltin name arguments => .call (isName_builtinWord name) (parsesAll arguments)
  | callBuiltinWithFrame name arguments =>
    .call (isName_builtinWord name) (.cons parses_frame (parsesAll arguments))
  | callProcedure name arguments =>
    .call name.isName_render (.cons parses_frame (parsesAll arguments))
  | integer _ => fun _ => rfl
  | boolean value => .word (by cases value <;> rfl)
  | text index => parses_text index
  | negate operand => .unary rfl (parses operand)
  | not operand => .unary rfl (parses operand)
  | binary op left right => .binary op (parses left) (parses right)

theorem parsesAll : (vs : List Operand) → List.Forall₂ ParsesOpen (tokensAll vs) (toCAll vs)
  | [] => .nil
  | v :: vs => .cons (parses v).open (parsesAll vs)

end

theorem isFrame_toC (v : Operand) : v.toC.isFrame = false := by
  cases v <;> rfl

theorem builtin?_builtinWord (name : String) : Expr.builtin? (builtinWord name) = some name := by
  rw [builtinWord_eq, Expr.builtin?, strip_append, Option.map_some, String.ofList_toList]

theorem ofWord?_builtinWord (name : String) :
    Expr.ofWord? (builtinWord name) = some (.builtin name) := by
  have hbuiltin := builtin?_builtinWord name
  rw [builtinWord_eq] at hbuiltin ⊢
  simp only [Expr.ofWord?, hbuiltin]
  rfl

theorem ofWord?_globalWord (name : String) :
    Expr.ofWord? (globalWord name) = some (.global name) := by
  rw [globalWord_eq, Expr.ofWord?, strip_append]
  exact congrArg (fun name => some (global name)) String.ofList_toList

theorem ofWord?_render (v : Var) : Expr.ofWord? v.render.toList = some (.load v) := by
  have htext : ∃ rest, v.render.toList = 'e' :: 'n' :: 'v' :: rest := by
    cases v <;> simp [Var.render]
  have hread := v.ofWord?_render
  obtain ⟨rest, h⟩ := htext
  rw [h] at hread ⊢
  change (Var.ofWord? ('e' :: 'n' :: 'v' :: rest)).map Operand.load = _
  rw [hread]
  rfl

theorem text?_textWord (index : Nat) : Expr.text? (textWord index) = some index := by
  rw [textWord_eq, Expr.text?, strip_append, Option.bind_some, natural?_toDigits]

theorem calledWithFrame?_render {name : Name} (h : name.isReadable = true)
    (arguments : List Operand) :
    Expr.calledWithFrame? name.render.toList arguments = some (.callProcedure name arguments) := by
  have hplain := Name.isPlain_of_isReadable h
  have htext : ∃ rest, name.render.toList = 'u' :: rest := by
    cases name <;> simp [Name.render]
  have hread := Name.ofWord?_render hplain
  obtain ⟨rest, htext⟩ := htext
  rw [htext] at hread ⊢
  change (Name.ofWord? ('u' :: rest)).map (fun name => callProcedure name arguments) = _
  rw [hread]
  rfl

mutual

theorem operand?_toC : (v : Operand) → v.isReadable = true → v.toC.operand? = some v
  | builtin name, _ => ofWord?_builtinWord name
  | global name, _ => ofWord?_globalWord name
  | load source, _ => ofWord?_render source
  | callBuiltin name arguments, h => by
    rw [isReadable, Bool.and_eq_true] at h
    have hread := operands?_toCAll arguments h.2
    have hcalled : Expr.called? (builtinWord name) arguments =
        some (.callBuiltin name arguments) := by
      rw [Expr.called?, builtin?_builtinWord, Option.map_some]
    cases arguments with
    | nil => exact hcalled
    | cons a more =>
      rw [toCAll] at hread
      rw [toC, toCAll, Expr.operand?, isFrame_toC, if_neg Bool.false_ne_true, hread,
        Option.bind_some, hcalled]
  | callBuiltinWithFrame name arguments, h => by
    rw [isReadable, Bool.and_eq_true] at h
    have hframe : frameArgument.isFrame = true := rfl
    rw [toC, Expr.operand?, if_pos hframe, operands?_toCAll arguments h.2, Option.bind_some,
      Expr.calledWithFrame?, builtin?_builtinWord]
  | callProcedure name arguments, h => by
    rw [isReadable, Bool.and_eq_true] at h
    have hframe : frameArgument.isFrame = true := rfl
    rw [toC, Expr.operand?, if_pos hframe, operands?_toCAll arguments h.2, Option.bind_some,
      calledWithFrame?_render h.1]
  | integer value, h => by
    obtain ⟨n, rfl⟩ := Int.eq_ofNat_of_zero_le (of_decide_eq_true h)
    rw [toC, Expr.operand?, Int.toNat_natCast, natural?_toDigits, Option.map_some]
  | boolean value, _ => by cases value <;> rfl
  | text index, _ => by
    rw [toC, Expr.operand?, if_pos rfl, text?_textWord, Option.map_some]
  | negate operand, h => by
    rw [toC, Expr.operand?, operand?_toC operand h, Option.map_some]
  | not operand, h => by
    rw [toC, Expr.operand?, operand?_toC operand h, Option.map_some]
  | binary op left right, h => by
    rw [isReadable, Bool.and_eq_true] at h
    rw [toC, Expr.operand?, operand?_toC left h.1, operand?_toC right h.2]
    rfl

theorem operands?_toCAll : (vs : List Operand) → areReadable vs = true →
    Expr.operands? (toCAll vs) = some vs
  | [], _ => rfl
  | v :: vs, h => by
    rw [areReadable, Bool.and_eq_true] at h
    rw [toCAll, Expr.operands?, operand?_toC v h.1, operands?_toCAll vs h.2]
    rfl

end

end Operand

end Code

end RootedC
