import RootedC.Code.Render
import RootedC.Proofs.Rendering.CSyntax
import RootedC.Proofs.Rendering.Identifiers

/-!
How C text is read piece by piece: words, numbers and punctuators one after the other, expressions
wherever an operand is due, statements in any block.
-/
namespace RootedC.C11

open Pattern Text

theorem isWord_append {a b : List Char} (ha : isWord a = true) (hb : b.all isWordPart = true) :
    isWord (a ++ b) = true := by
  cases a with
  | nil => cases ha
  | cons c a =>
    simp only [isWord, List.head?_cons, List.cons_append, List.all_cons, List.all_append,
      Bool.and_eq_true] at ha ⊢
    exact ⟨ha.1, ha.2.1, ha.2.2, hb⟩

theorem isWordPart_toDigits (n : Nat) : (Nat.toDigits 10 n).all isWordPart = true :=
  List.all_eq_true.mpr fun c hc =>
    isWordPart_of_isDigit (List.all_eq_true.mp (isDigit_toDigits n) c hc)

/-- Nothing in the text continues a word or a number in front of it. -/
def stops (rest : List Char) : Bool := rest.head?.all fun c => !isNumberPart c

/-- A punctuator of one character that no other one starts with. -/
def isSolo (c : Char) : Bool := ['(', ')', '[', ']', '\x7b', '\x7d', ';', ','].contains c

namespace Reads

variable {a rest : List Char} {ts : List Tok}

theorem ofWord {w : List Char} (h : isWord w = true) (hrest : stops rest = true) :
    Reads w [.word w] rest := by
  rw [isWord, Bool.and_eq_true] at h
  refine word h.1 h.2 ?_
  cases rest with
  | nil => rfl
  | cons c rest =>
    have hc : isNumberPart c = false := by simpa [stops] using hrest
    have hpart : isWordPart c = false := (Bool.or_eq_false_iff.mp hc).1
    simp [hpart]

theorem digits (n : Nat) (hrest : stops rest = true) :
    Reads (Nat.toDigits 10 n) [.number (Nat.toDigits 10 n)] rest :=
  number Nat.toDigits_ne_nil (isDigit_toDigits n) hrest

theorem spaced {c : Char} (hc : isSpace c = true) (h : Reads a ts rest) :
    Reads (c :: a) ts rest :=
  append (space hc) h

theorem solo {c : Char} (hc : isSolo c = true) (h : Reads a ts rest) :
    Reads (c :: a) (Tok.mark [c] :: ts) rest := by
  refine append (solid (p := [c]) ?_ ?_ ?_ ?_) h <;>
  · simp only [isSolo, List.contains_eq_mem, List.mem_cons, List.not_mem_nil, or_false,
      decide_eq_true_eq] at hc
    rcases hc with rfl | rfl | rfl | rfl | rfl | rfl | rfl | rfl <;> decide +kernel

theorem alone {p : List Char} (hp : p ∈ punctuators) (hdot : p.head? ≠ some '.')
    (hnext : (a ++ rest).head?.all (fun c => !isMarkRest c) = true) (h : Reads a ts rest) :
    Reads (p ++ a) (.mark p :: ts) rest :=
  append (lone hp hdot hnext) h

end Reads

theorem Reads.commas {ss : List String} {tss : List (List Tok)}
    (h : List.Forall₂ (fun s ts => ∀ {rest}, stops rest = true → Reads s.toList ts rest) ss tss)
    {rest : List Char} (hrest : stops rest = true) :
    Reads (Code.commas ss).toList (listed tss) rest := by
  induction h with
  | nil => exact nil
  | @cons a ts ss tss ha hmore ih =>
    cases hmore with
    | nil => exact ha hrest
    | @cons b us ss tss hb hmore =>
      have htext : (Code.commas (a :: b :: ss)).toList =
          a.toList ++ ',' :: ' ' :: (Code.commas (b :: ss)).toList := by simp [Code.commas]
      rw [htext, listed]
      exact append (ha rfl) (solo rfl (spaced rfl ih))

namespace State

theorem run_cons {s : State} {t : Tok} {ts : List Tok} :
    s.run (t :: ts) = (s.step t).bind (·.run ts) := rfl

end State

/-- Wherever an operand is due, the tokens are read as the expression. -/
def Parses (ts : List Tok) (x : Expr) : Prop :=
  ∀ stack, (State.operand stack).run ts = some (.operator stack x)

/-- The same, but operators may still be open in front of the last operand. -/
def ParsesOpen (ts : List Tok) (x : Expr) : Prop :=
  ∀ stack, ∃ stack' y, (State.operand stack).run ts = some (.operator stack' y) ∧
    ∀ level, close level stack' y = close level stack x

theorem Parses.open {ts : List Tok} {x : Expr} (h : Parses ts x) : ParsesOpen ts x :=
  fun stack => ⟨stack, x, h stack, fun _ => rfl⟩

theorem Parses.word {w : List Char} (h : isName w = true) : Parses [.word w] (.word w) := by
  intro stack
  simp [State.step, h, State.run]

/-- Behind the opening parenthesis of a call, arguments divided by commas are read one by one. -/
theorem run_arguments {f : Expr} {tss : List (List Tok)} {xs : List Expr}
    (h : List.Forall₂ ParsesOpen tss xs) (hne : xs ≠ []) (done : List Expr) (stack : List Frame) :
    (State.operand (.arguments f done :: stack)).run (listed tss ++ [Tok.mark [')']]) =
      some (.operator stack (.call f (done ++ xs))) := by
  induction h generalizing done with
  | nil => exact absurd rfl hne
  | @cons ts x tss xs hx hmore ih =>
    obtain ⟨stack', y, hrun, hclose⟩ := hx (.arguments f done :: stack)
    have hargs : close 0 stack' y = (.arguments f done :: stack, x) := hclose 0
    cases hmore with
    | nil =>
      have hstep : (State.operator stack' y).step (Tok.mark [')']) =
          some (.operator stack (.call f (done ++ [x]))) := by
        change State.closeParen (close 0 stack' y) = _
        rw [hargs, State.closeParen]
      rw [listed, State.run_append, hrun, Option.bind_some, State.run_cons, hstep]
      rfl
    | @cons us z tss xs hz hmore =>
      have hstep : (State.operator stack' y).step (Tok.mark [',']) =
          some (.operand (.arguments f (done ++ [x]) :: stack)) := by
        change State.nextArgument (close 0 stack' y) = _
        rw [hargs, State.nextArgument]
      rw [listed, List.append_assoc, List.cons_append, State.run_append, hrun, Option.bind_some,
        State.run_cons, hstep, Option.bind_some, ih (List.cons_ne_nil _ _), List.append_assoc,
        List.singleton_append]

theorem Parses.call {w : List Char} (hw : isName w = true) {tss : List (List Tok)} {xs : List Expr}
    (h : List.Forall₂ ParsesOpen tss xs) :
    Parses (Tok.word w :: Tok.mark ['('] :: (listed tss ++ [Tok.mark [')']]))
      (.call (.word w) xs) := by
  intro stack
  have hopen : (State.operand stack).run [.word w, Tok.mark ['(']] =
      some (.operand (.arguments (.word w) [] :: stack)) := by
    simp [State.step, hw, State.stepOperator, State.run]
  change (State.operand stack).run ([.word w, Tok.mark ['(']] ++ _) = _
  rw [State.run_append, hopen, Option.bind_some]
  cases h with
  | nil => rfl
  | cons hx hmore => exact run_arguments (.cons hx hmore) (List.cons_ne_nil _ _) [] stack

theorem Parses.unary {m : List Char} {op : UnOp} (hm : unOp? m = some op) {ts : List Tok} {x : Expr}
    (h : Parses ts x) :
    Parses (Tok.mark ['('] :: Tok.mark m :: (ts ++ [Tok.mark [')']])) (.unary op x) := by
  intro stack
  have hopen : (State.operand (.paren :: stack)).step (Tok.mark m) =
      some (.operand (.unary op :: .paren :: stack)) := by
    simp [State.step, State.stepOperand, hm]
  change ((State.operand (.paren :: stack)).step (Tok.mark m)).bind
    (·.run (ts ++ [Tok.mark [')']])) = _
  rw [hopen, Option.bind_some, State.run_append, h, Option.bind_some]
  rfl

theorem State.stepOperator_symbol (op : BinaryOp) (stack : List Frame) (x : Expr) :
    State.stepOperator stack x op.symbol.toList =
      some (.operand (.binary op (close (precedence op) stack x).2 ::
        (close (precedence op) stack x).1)) := by
  cases op <;> rfl

theorem Parses.binary (op : BinaryOp) {ts us : List Tok} {x y : Expr} (hx : Parses ts x)
    (hy : Parses us y) :
    Parses (Tok.mark ['('] :: (ts ++ Tok.mark op.symbol.toList :: (us ++ [Tok.mark [')']])))
      (.binary op x y) := by
  intro stack
  have hop : (State.operator (.paren :: stack) x).step (Tok.mark op.symbol.toList) =
      some (.operand (.binary op x :: .paren :: stack)) :=
    State.stepOperator_symbol op (.paren :: stack) x
  change (State.operand (.paren :: stack)).run (ts ++ _) = _
  rw [State.run_append, hx, Option.bind_some, State.run_cons, hop, Option.bind_some,
    State.run_append, hy, Option.bind_some]
  change State.closeParen (close 0 (.binary op x :: .paren :: stack) y) >>= _ = _
  rw [close, if_pos (Nat.zero_le _)]
  rfl

/-- In a statement, an expression ends at a punctuator that cannot go on with it. -/
theorem take?_of_parsesOpen {ts : List Tok} {x : Expr} (h : ParsesOpen ts x) {m : List Char}
    (hm : m ∈ [[';'], ['='], [')'], [']']]) (rest : List Tok) :
    Expr.take? (ts ++ Tok.mark m :: rest) = some (x, Tok.mark m :: rest) := by
  obtain ⟨stack, y, hrun, hclose⟩ := h []
  have hdone : close 0 stack y = ([], x) := hclose 0
  have hstop : (State.operator stack y).step (Tok.mark m) = none := by
    simp only [List.mem_cons, List.not_mem_nil, or_false] at hm
    rcases hm with rfl | rfl | rfl | rfl
    · rfl
    · rfl
    · change State.closeParen (close 0 stack y) = none
      rw [hdone]
      rfl
    · change State.closeIndex (close 0 stack y) = none
      rw [hdone]
      rfl
  rw [Expr.take?, takeFrom_of_run hrun, takeFrom, hstop, State.finish, hdone]
  rfl

theorem ended?_of_parsesOpen {ts : List Tok} {x : Expr} (h : ParsesOpen ts x) (rest : List Tok) :
    Piece.ended? (ts ++ Tok.mark [';'] :: rest) = some (x, rest) := by
  rw [Piece.ended?, take?_of_parsesOpen h (by decide)]
  rfl

/-- A token that starts an expression statement or an assignment. -/
def startsValue : Tok → Bool
  | .word w => isName w
  | .number _ => true
  | Tok.mark m => m != ['\x7d']

theorem Piece.take?_of_startsValue {t : Tok} (h : startsValue t = true) (ts : List Tok) :
    Piece.take? t ts = evaluated? (t :: ts) := by
  cases t with
  | number n => rfl
  | mark m =>
    have hm : m ≠ ['\x7d'] := by simpa [startsValue] using h
    simp [take?, hm]
  | word w =>
    have hw : isName w = true := h
    have hkeyword : ∀ k ∈ keywords, w ≠ k := by
      rintro k hk rfl
      simp [isName, hk] at hw
    have htype : typeNames.contains w = false := by
      simp only [isName, Bool.and_eq_true, Bool.not_eq_true'] at hw
      exact hw.1
    have hif := hkeyword "if".toList (by decide)
    have helse := hkeyword "else".toList (by decide)
    have hreturn := hkeyword "return".toList (by decide)
    rw [take?, if_neg (by simp), if_neg (fun h => helse (Tok.word.inj h)),
      if_neg (fun h => hif (Tok.word.inj h)), if_neg (fun h => hreturn (Tok.word.inj h))]
    exact if_neg (by rw [htype]; exact Bool.false_ne_true)

theorem layout?_cons {t : Tok} {ts rest : List Tok} {p : Piece}
    (h : Piece.take? t ts = some (p, rest)) (l : Layout) :
    layout? l (t :: ts) = (l.step p).bind (layout? · rest) := by
  have hpieces : pieces (t :: ts) = (pieces rest).map (p :: ·) := by
    rw [pieces]
    split
    · next q us hq =>
      rw [h] at hq
      cases hq
      rfl
    · next hq =>
      rw [h] at hq
      cases hq
  rw [layout?, hpieces]
  cases hrest : pieces rest with
  | none => cases hstep : l.step p <;> simp [layout?, hrest]
  | some ps => cases hstep : l.step p <;> simp [layout?, hrest, Layout.run, hstep]

/-- The type in front of a declared name. -/
def typeTokens (type : List Char) (pointer : Bool) : List Tok :=
  Tok.word type :: if pointer then [Tok.mark ['*']] else []

/-- In any block, the tokens are read as these statements. -/
def Means (ts : List Tok) (ss : List Stmt) : Prop :=
  ∀ blocks done rest,
    layout? (.body blocks done) (ts ++ rest) = layout? (.body blocks (done ++ ss)) rest

namespace Means

variable {ts us : List Tok} {ss vs : List Stmt}

theorem nil : Means [] [] := by
  intro blocks done rest
  rw [List.nil_append, List.append_nil]

theorem append (ht : Means ts ss) (hu : Means us vs) : Means (ts ++ us) (ss ++ vs) := by
  intro blocks done rest
  rw [List.append_assoc, ht, hu, List.append_assoc]

theorem simple {t : Tok} {s : Stmt}
    (h : ∀ rest, Piece.take? t (ts ++ rest) = some (.simple s, rest)) : Means (t :: ts) [s] := by
  intro blocks done rest
  rw [List.cons_append, layout?_cons (h rest)]
  rfl

theorem value (hstart : ts.head?.any startsValue = true) {s : Stmt}
    (h : ∀ rest, Piece.evaluated? (ts ++ rest) = some (.simple s, rest)) : Means ts [s] := by
  cases ts with
  | nil => cases hstart
  | cons t ts =>
    refine simple fun rest => ?_
    rw [Piece.take?_of_startsValue hstart]
    exact h rest

theorem eval (hstart : ts.head?.any startsValue = true) {x : Expr} (h : ParsesOpen ts x) :
    Means (ts ++ [Tok.mark [';']]) [.eval x] := by
  refine value ?_ fun rest => ?_
  · cases ts with
    | nil => cases hstart
    | cons t ts => exact hstart
  · rw [List.append_assoc, Piece.evaluated?]
    change (Expr.take? (ts ++ Tok.mark [';'] :: rest)).bind _ = _
    rw [take?_of_parsesOpen h (by decide)]
    rfl

theorem assign (hstart : ts.head?.any startsValue = true) {x y : Expr} (hx : ParsesOpen ts x)
    (hy : ParsesOpen us y) :
    Means (ts ++ Tok.mark ['='] :: (us ++ [Tok.mark [';']])) [.assign x y] := by
  refine value ?_ fun rest => ?_
  · cases ts with
    | nil => cases hstart
    | cons t ts => exact hstart
  · rw [List.append_assoc, List.cons_append, List.append_assoc, Piece.evaluated?]
    change (Expr.take? (ts ++ Tok.mark ['='] :: (us ++ Tok.mark [';'] :: rest))).bind _ = _
    rw [take?_of_parsesOpen hx (by decide), Option.bind_some]
    change (Piece.ended? (us ++ Tok.mark [';'] :: rest)).map _ = _
    rw [ended?_of_parsesOpen hy]
    rfl

theorem ret {x : Expr} (h : ParsesOpen ts x) :
    Means (Tok.word "return".toList :: (ts ++ [Tok.mark [';']])) [.ret x] := by
  refine simple fun rest => ?_
  rw [List.append_assoc]
  change (Piece.ended? (ts ++ Tok.mark [';'] :: rest)).map _ = _
  rw [ended?_of_parsesOpen h]
  rfl

theorem branch {x : Expr} (hx : ParsesOpen ts x) {body otherwise : List Tok}
    {thenBody elseBody : List Stmt} (hthen : Means body thenBody)
    (helse : Means otherwise elseBody) :
    Means (Tok.word "if".toList :: Tok.mark ['('] :: (ts ++ Tok.mark [')'] :: Tok.mark ['\x7b'] ::
      (body ++ Tok.mark ['\x7d'] :: Tok.word "else".toList :: Tok.mark ['\x7b'] ::
        (otherwise ++ [Tok.mark ['\x7d']])))) [.branch x thenBody elseBody] := by
  intro blocks done rest
  simp only [List.cons_append, List.append_assoc, List.nil_append]
  have hopen : ∀ us, Piece.take? (.word "if".toList)
      (Tok.mark ['('] :: (ts ++ Tok.mark [')'] :: Tok.mark ['\x7b'] :: us)) =
        some (.branch x, us) := by
    intro us
    change (Expr.take? (ts ++ Tok.mark [')'] :: Tok.mark ['\x7b'] :: us)).bind _ = _
    rw [take?_of_parsesOpen hx (by decide)]
    rfl
  have hclose : ∀ us, Piece.take? (Tok.mark ['\x7d']) us = some (.close, us) := fun _ => rfl
  have hotherwise : ∀ us, Piece.take? (.word "else".toList) (Tok.mark ['\x7b'] :: us) =
      some (.otherwise, us) := fun _ => rfl
  rw [layout?_cons (hopen _), Layout.step, Option.bind_some, hthen, layout?_cons (hclose _),
    Layout.step, Option.bind_some, layout?_cons (hotherwise _), Layout.step, Option.bind_some,
    helse, layout?_cons (hclose _), Layout.step, Option.bind_some]
  simp only [List.nil_append]

theorem take?_typed {type : List Char} (htype : typeNames.contains type = true) (ts : List Tok) :
    Piece.take? (.word type) ts = Piece.declared? type ts := by
  have hwords : ∀ w ∈ typeNames, w ∉ keywords := by decide
  have hkeyword : type ∉ keywords := hwords type (List.contains_iff_mem.mp htype)
  have hne : ∀ k ∈ keywords, Tok.word type ≠ .word k := by
    rintro k hk h
    exact hkeyword (Tok.word.inj h ▸ hk)
  rw [Piece.take?, if_neg (by simp), if_neg (hne _ (by decide)), if_neg (hne _ (by decide)),
    if_neg (hne _ (by decide))]
  exact if_pos htype

theorem declared?_typed {type name : List Char} (pointer : Bool) (hname : isName name = true)
    (ts : List Tok) :
    Piece.declared? type ((if pointer then [Tok.mark ['*']] else []) ++ Tok.word name :: ts) =
      Piece.initial? type pointer name ts := by
  have hread : name? (Tok.word name :: ts) = some (name, ts) := if_pos hname
  cases pointer
  · change (name? (Tok.word name :: ts)).bind _ = _
    rw [hread]
    rfl
  · change (name? (Tok.word name :: ts)).bind _ = _
    rw [hread]
    rfl

theorem declaration {type name : List Char} {pointer : Bool} {s : Stmt}
    (htype : typeNames.contains type = true) (hname : isName name = true)
    (h : ∀ rest, Piece.initial? type pointer name (ts ++ rest) = some (.simple s, rest)) :
    Means (typeTokens type pointer ++ Tok.word name :: ts) [s] := by
  refine simple fun rest => ?_
  rw [take?_typed htype]
  change Piece.declared? type
    (((if pointer then [Tok.mark ['*']] else []) ++ Tok.word name :: ts) ++ rest) = _
  rw [List.append_assoc, List.cons_append, declared?_typed pointer hname, h]

theorem declare {type name : List Char} (pointer : Bool) (htype : typeNames.contains type = true)
    (hname : isName name = true) :
    Means (typeTokens type pointer ++ [.word name, Tok.mark [';']])
      [.declare type pointer name none] :=
  declaration htype hname fun _ => rfl

theorem declareWith {type name : List Char} (pointer : Bool)
    (htype : typeNames.contains type = true) (hname : isName name = true) {x : Expr}
    (h : ParsesOpen ts x) :
    Means (typeTokens type pointer ++ Tok.word name :: Tok.mark ['='] :: (ts ++ [Tok.mark [';']]))
      [.declare type pointer name (some x)] := by
  refine declaration htype hname fun rest => ?_
  rw [List.cons_append, List.append_assoc]
  change (Piece.ended? (ts ++ Tok.mark [';'] :: rest)).map _ = _
  rw [ended?_of_parsesOpen h]
  rfl

theorem table {type name : List Char} (pointer : Bool) (htype : typeNames.contains type = true)
    (hname : isName name = true) {x : Expr} (h : ParsesOpen ts x) :
    Means (typeTokens type pointer ++ Tok.word name :: Tok.mark ['['] ::
      (ts ++ [Tok.mark [']'], Tok.mark ['='], Tok.mark ['\x7b'], Tok.number ['0'],
        Tok.mark ['\x7d'], Tok.mark [';']])) [.table type pointer name x] := by
  refine declaration htype hname fun rest => ?_
  rw [List.cons_append, List.append_assoc]
  change (Expr.take? (ts ++ Tok.mark [']'] :: Tok.mark ['='] :: Tok.mark ['\x7b'] ::
    Tok.number ['0'] :: Tok.mark ['\x7d'] :: Tok.mark [';'] :: rest)).bind _ = _
  rw [take?_of_parsesOpen h (by decide)]
  rfl

end Means

theorem statements?_of_means {ts : List Tok} {ss : List Stmt} (h : Means ts ss) :
    statements? ts = some ss := by
  have hrun : layout? (.body [] []) ts = some (.body [] ss) := by
    have := h [] [] []
    rwa [List.append_nil, List.nil_append, layout?, layout?, pieces] at this
  rw [statements?, hrun]

/-- Spaces in front of a line and its end are not read. -/
theorem Reads.line {text : String} {cs rest : List Char} (htext : text.toList = cs) {ts : List Tok}
    (h : Reads cs ts ('\n' :: rest)) (depth : Nat) :
    Reads (Code.codeLine depth text).toList ts rest := by
  have hcode : (Code.codeLine depth text).toList =
      List.replicate (4 * depth) ' ' ++ (cs ++ ['\n']) := by
    simp [Code.codeLine, htext]
  have hline : Reads (cs ++ ['\n']) ts rest := by
    have hend : Reads ['\n'] [] rest := space rfl
    simpa using Reads.append h hend
  rw [hcode]
  induction 4 * depth with
  | zero => exact hline
  | succ n ih => exact spaced rfl ih

end RootedC.C11
