import RootedC.Proofs.Rendering.CSyntax

/-!
What reading C means. Tokens are the longest ones at each place, and an expression that is read is
one that the C grammar derives from the tokens in front, level by level.
-/
namespace RootedC.C11

open Pattern

/-- What may follow the first digit of a preprocessing number. -/
inductive NumberTail : List Char → Prop where
  | nil : NumberTail []
  | part {c : Char} {cs : List Char} : isNumberPart c = true → NumberTail cs → NumberTail (c :: cs)
  | exponent {c d : Char} {cs : List Char} : ['e', 'E', 'p', 'P'].contains c = true →
    ['+', '-'].contains d = true → NumberTail cs → NumberTail (c :: d :: cs)

/-- The tokens of C: identifiers and keywords, preprocessing numbers and punctuators. -/
inductive Tok.Wellformed : Tok → Prop where
  | word {w : List Char} : isWord w = true → Wellformed (.word w)
  | number {c : Char} {cs : List Char} : c.isDigit = true → NumberTail cs →
    Wellformed (.number (c :: cs))
  | fraction {c : Char} {cs : List Char} : c.isDigit = true → NumberTail cs →
    Wellformed (.number ('.' :: c :: cs))
  | mark {m : List Char} : m ∈ punctuators → Wellformed (Tok.mark m)

/-- No token at the front of the text is longer. -/
structure Tok.Longest (t : Tok) (cs : List Char) : Prop where
  wellformed : t.Wellformed
  fits : t.text <+: cs
  longest : ∀ u : Tok, u.Wellformed → u.text <+: cs → u.text.length ≤ t.text.length

/-- A text cut into tokens and spaces by maximal munch. -/
inductive Munches : List Char → List Tok → Prop where
  | nil : Munches [] []
  | space {c : Char} {cs : List Char} {ts : List Tok} : isSpace c = true → Munches cs ts →
    Munches (c :: cs) ts
  | token {t : Tok} {rest : List Char} {ts : List Tok} : t.Longest (t.text ++ rest) →
    Munches rest ts → Munches (t.text ++ rest) (t :: ts)

theorem isNumberPart_of_exponent {c : Char} (h : ['e', 'E', 'p', 'P'].contains c = true) :
    isNumberPart c = true := by
  have hall : ['e', 'E', 'p', 'P'].all isNumberPart = true := by decide
  exact List.all_eq_true.mp hall c (List.contains_iff_mem.mp h)

theorem isNumberPart_of_sign {c : Char} (h : ['+', '-'].contains c = true) :
    isNumberPart c = false := by
  have hall : ['+', '-'].all (fun c => !isNumberPart c) = true := by decide
  simpa using List.all_eq_true.mp hall c (List.contains_iff_mem.mp h)

theorem numberTail_wellformed (cs : List Char) : NumberTail (numberTail cs).1 := by
  fun_induction numberTail cs with
  | case1 => exact .nil
  | case2 c hc => exact .part hc .nil
  | case3 => exact .nil
  | case4 c d rest h text rest' heq ih =>
    rw [heq] at ih
    rw [Bool.and_eq_true] at h
    exact .exponent h.1 h.2 ih
  | case5 c d rest _ hc text rest' heq ih =>
    rw [heq] at ih
    exact .part hc ih
  | case6 => exact .nil

theorem NumberTail.head {c : Char} {cs : List Char} (h : NumberTail (c :: cs)) :
    isNumberPart c = true := by
  cases h with
  | part hc _ => exact hc
  | exponent hc _ _ => exact isNumberPart_of_exponent hc

/-- No longer tail of a number stands at the front of a text. -/
theorem NumberTail.length_le {ds cs : List Char} (h : NumberTail ds) (hfits : ds <+: cs) :
    ds.length ≤ (numberTail cs).1.length := by
  fun_induction numberTail cs generalizing ds with
  | case1 => simpa using hfits.length_le
  | case2 c hc => exact hfits.length_le
  | case3 c hc =>
    cases ds with
    | nil => exact Nat.le_refl _
    | cons d ds =>
      obtain ⟨rfl, -⟩ := List.cons_prefix_cons.mp hfits
      exact absurd h.head hc
  | case4 c d rest hexp text rest' heq ih =>
    rw [heq] at ih
    rw [Bool.and_eq_true] at hexp
    cases h with
    | nil => exact Nat.zero_le _
    | @part _ ds _ hds =>
      obtain ⟨-, hfits⟩ := List.cons_prefix_cons.mp hfits
      -- a sign is no part of a number, so the shorter tail ends before it
      cases ds with
      | nil => simp
      | cons e ds =>
        obtain ⟨rfl, -⟩ := List.cons_prefix_cons.mp hfits
        have hsign := hds.head
        rw [isNumberPart_of_sign hexp.2] at hsign
        cases hsign
    | @exponent _ e ds _ _ hds =>
      have hfits := (List.cons_prefix_cons.mp (List.cons_prefix_cons.mp hfits).2).2
      exact Nat.succ_le_succ (Nat.succ_le_succ (ih hds hfits))
  | case5 c d rest hexp hc text rest' heq ih =>
    rw [heq] at ih
    cases h with
    | nil => exact Nat.zero_le _
    | @part _ ds _ hds =>
      exact Nat.succ_le_succ (ih hds (List.cons_prefix_cons.mp hfits).2)
    | @exponent _ e ds hc' he hds =>
      obtain ⟨rfl, hnext⟩ := List.cons_prefix_cons.mp hfits
      obtain ⟨rfl, -⟩ := List.cons_prefix_cons.mp hnext
      exact absurd (by rw [hc', he]; rfl) hexp
  | case6 c d rest hexp hc =>
    cases ds with
    | nil => exact Nat.le_refl _
    | cons e ds =>
      obtain ⟨rfl, -⟩ := List.cons_prefix_cons.mp hfits
      exact absurd h.head hc

section Longest

variable {c : Char} {cs : List Char}

theorem isWordStart_of_fits {w : List Char} (hw : isWord w = true) (h : w <+: c :: cs) :
    isWordStart c = true := by
  cases w with
  | nil => cases hw
  | cons d w =>
    obtain ⟨rfl, -⟩ := List.cons_prefix_cons.mp h
    exact (Bool.and_eq_true_iff.mp hw).1

theorem head_of_mark {m : List Char} (hm : m ∈ punctuators) (h : m <+: c :: cs) :
    isWordStart c = false ∧ c.isDigit = false := by
  have hhead := head_of_mem_punctuators m hm
  cases m with
  | nil => exact absurd rfl (ne_nil_of_mem_punctuators _ hm)
  | cons d m =>
    obtain ⟨rfl, -⟩ := List.cons_prefix_cons.mp h
    simp only [List.head?_cons, Option.all_some, Bool.and_eq_true, Bool.not_eq_true'] at hhead
    exact ⟨hhead.1.2, hhead.2⟩

theorem longest_word (hc : isWordStart c = true) :
    (Tok.word (c :: cs.takeWhile isWordPart)).Longest (c :: cs) where
  wellformed := by
    refine .word ?_
    have hpart := isWordPart_of_isWordStart c hc
    have hall : (cs.takeWhile isWordPart).all isWordPart = true := List.all_takeWhile
    simp [isWord, hc, hpart, hall]
  fits := List.cons_prefix_cons.mpr ⟨rfl, List.takeWhile_prefix _⟩
  longest u hu hfits := by
    cases hu with
    | @word w hw =>
      cases w with
      | nil => exact Nat.zero_le _
      | cons d w =>
        obtain ⟨more, rfl⟩ := (List.cons_prefix_cons.mp hfits).2
        simp only [isWord, List.all_cons, Bool.and_eq_true] at hw
        rw [List.takeWhile_append_of_pos (List.all_eq_true.mp hw.2.2)]
        simp [Tok.text]
    | number hd _ =>
      obtain ⟨rfl, -⟩ := List.cons_prefix_cons.mp hfits
      rw [isWordStart_of_isDigit hd] at hc
      cases hc
    | fraction _ _ =>
      obtain ⟨rfl, -⟩ := List.cons_prefix_cons.mp hfits
      cases hc
    | mark hm =>
      rw [(head_of_mark hm hfits).1] at hc
      cases hc

theorem longest_number (hc : c.isDigit = true) :
    (Tok.number (c :: (numberTail cs).1)).Longest (c :: cs) where
  wellformed := .number hc (numberTail_wellformed cs)
  fits := List.cons_prefix_cons.mpr ⟨rfl, ⟨_, append_numberTail cs⟩⟩
  longest u hu hfits := by
    cases hu with
    | word hw =>
      have hstart := isWordStart_of_fits hw hfits
      rw [isWordStart_of_isDigit hc] at hstart
      cases hstart
    | number _ hds => exact Nat.succ_le_succ (hds.length_le (List.cons_prefix_cons.mp hfits).2)
    | fraction _ _ =>
      obtain ⟨rfl, -⟩ := List.cons_prefix_cons.mp hfits
      cases hc
    | mark hm =>
      rw [(head_of_mark hm hfits).2] at hc
      cases hc

theorem longest_fraction (hc : c.isDigit = true) :
    (Tok.number ('.' :: (numberTail (c :: cs)).1)).Longest ('.' :: c :: cs) := by
  rw [numberTail_digit hc]
  exact {
    wellformed := .fraction hc (numberTail_wellformed cs)
    fits := List.cons_prefix_cons.mpr
      ⟨rfl, List.cons_prefix_cons.mpr ⟨rfl, ⟨_, append_numberTail cs⟩⟩⟩
    longest := fun u hu hfits => by
      cases hu with
      | word hw => cases isWordStart_of_fits hw hfits
      | number hd _ =>
        obtain ⟨rfl, -⟩ := List.cons_prefix_cons.mp hfits
        cases hd
      | fraction _ hds =>
        have hfits := (List.cons_prefix_cons.mp (List.cons_prefix_cons.mp hfits).2).2
        exact Nat.succ_le_succ (Nat.succ_le_succ (hds.length_le hfits))
      | @mark m hm =>
        -- a digit continues no punctuator, so this one is the dot
        have htail := isMarkRest_tail m hm
        match m, hfits, htail with
        | [], _, _ => exact Nat.zero_le _
        | [_], _, _ => exact Nat.succ_le_succ (Nat.zero_le _)
        | e :: d :: m, hfits, htail =>
          obtain ⟨rfl, -⟩ := List.cons_prefix_cons.mp (List.cons_prefix_cons.mp hfits).2
          simp [isMarkRest_of_isDigit hc] at htail }

theorem longest_mark {m : List Char} (hstart : isWordStart c = false) (hdigit : c.isDigit = false)
    (hdot : (c == '.' && cs.head?.any Char.isDigit) = false) (h : punctuator? (c :: cs) = some m) :
    (Tok.mark m).Longest (c :: cs) := by
  obtain ⟨hm, hfits, hlong⟩ := longest_of_punctuator? h
  refine ⟨.mark hm, hfits, fun u hu hfits => ?_⟩
  cases hu with
  | word hw =>
    rw [isWordStart_of_fits hw hfits] at hstart
    cases hstart
  | number hd _ =>
    obtain ⟨rfl, -⟩ := List.cons_prefix_cons.mp hfits
    rw [hd] at hdigit
    cases hdigit
  | @fraction d ds hd _ =>
    obtain ⟨rfl, more, rfl⟩ := List.cons_prefix_cons.mp hfits
    simp [hd] at hdot
  | mark hq => exact hlong _ hq hfits

theorem Tok.longest_of_take? {t : Tok} {rest : List Char} (h : Tok.take? c cs = some (t, rest)) :
    t.text ++ rest = c :: cs ∧ t.Longest (c :: cs) := by
  unfold take? at h
  split at h
  · next hc =>
    cases h
    exact ⟨congrArg (c :: ·) List.takeWhile_append_dropWhile, longest_word hc⟩
  split at h
  · next hc =>
    cases h
    refine ⟨congrArg (c :: ·) (append_numberTail cs), ?_⟩
    rcases Bool.or_eq_true_iff.mp hc with hdigit | hdot
    · exact longest_number hdigit
    · rw [Bool.and_eq_true, beq_iff_eq] at hdot
      obtain ⟨rfl, hdigit⟩ := hdot
      cases cs with
      | nil => cases hdigit
      | cons d cs => exact longest_fraction hdigit
  split at h
  · cases h
  · next hstart hnumber _ =>
    obtain ⟨m, hm, hrest⟩ := Option.map_eq_some_iff.mp h
    cases hrest
    rw [Bool.or_eq_true, not_or, Bool.not_eq_true, Bool.not_eq_true] at hnumber
    obtain ⟨rest, hfits⟩ := (longest_of_punctuator? hm).2.1
    refine ⟨?_, longest_mark (Bool.eq_false_iff.mpr hstart) hnumber.1 hnumber.2 hm⟩
    rw [← hfits, List.drop_left]
    rfl

end Longest

/-- Reading tokens is cutting by maximal munch. -/
theorem munches_of_lex {cs : List Char} {ts : List Tok} (h : lex cs = some ts) : Munches cs ts := by
  fun_induction lex cs generalizing ts with
  | case1 =>
    cases h
    exact .nil
  | case2 c cs hc ih => exact .space hc (ih h)
  | case3 c cs hc t rest ht ih =>
    obtain ⟨us, hus, rfl⟩ := Option.map_eq_some_iff.mp h
    obtain ⟨htext, hlong⟩ := Tok.longest_of_take? ht
    rw [← htext] at hlong ⊢
    exact .token hlong (ih hus)
  | case4 => cases h

/-- The C expressions of a level: 1 to 10 are those of the binary operators, 11 casts, 12 unary
operators, 13 calls and subscripts, 14 names, numbers and what stands in parentheses. -/
inductive Derives : Nat → List Tok → Expr → Prop where
  | word {w : List Char} : isName w = true → Derives 14 [.word w] (.word w)
  | number {n : List Char} : Derives 14 [.number n] (.number n)
  | paren {ts : List Tok} {x : Expr} : Derives 1 ts x →
    Derives 14 (Tok.mark ['('] :: (ts ++ [Tok.mark [')']])) x
  | call {ts : List Tok} {f : Expr} {uss : List (List Tok)} {xs : List Expr} : Derives 13 ts f →
    List.Forall₂ (Derives 1) uss xs →
    Derives 13 (ts ++ Tok.mark ['('] :: (listed uss ++ [Tok.mark [')']])) (.call f xs)
  | index {ts us : List Tok} {a x : Expr} : Derives 13 ts a → Derives 1 us x →
    Derives 13 (ts ++ Tok.mark ['['] :: (us ++ [Tok.mark [']']])) (.index a x)
  | unary {m : List Char} {op : UnOp} {ts : List Tok} {x : Expr} : unOp? m = some op →
    Derives 11 ts x → Derives 12 (Tok.mark m :: ts) (.unary op x)
  | cast {type : List Char} {ts : List Tok} {x : Expr} : typeNames.contains type = true →
    Derives 11 ts x →
    Derives 11 (Tok.mark ['('] :: Tok.word type :: Tok.mark ['*'] :: Tok.mark [')'] :: ts)
      (.cast type x)
  | binary {op : BinaryOp} {m : List Char} {ts us : List Tok} {x y : Expr} :
    binaryOp? m = some op → Derives (precedence op) ts x → Derives (precedence op + 1) us y →
    Derives (precedence op) (ts ++ Tok.mark m :: us) (.binary op x y)
  | lift {level : Nat} {ts : List Tok} {x : Expr} : Derives (level + 1) ts x → Derives level ts x

theorem Derives.of_le {k n : Nat} {ts : List Tok} {x : Expr} (h : Derives n ts x) (hle : k ≤ n) :
    Derives k ts x := by
  induction n, hle using Nat.le_induction with
  | base => exact h
  | succ n _ ih => exact ih h.lift

/-- The tokens of what waits for an operand, and the level that the operand must have. Between
brackets, every operator binds more strongly than those in front of it. -/
inductive Opens : Nat → List Frame → List Tok → Prop where
  | nil : Opens 1 [] []
  | paren {k : Nat} {stack : List Frame} {ts : List Tok} : Opens k stack ts →
    Opens 1 (.paren :: stack) (ts ++ [Tok.mark ['(']])
  | arguments {k : Nat} {stack : List Frame} {ts us : List Tok} {f : Expr}
    {vss : List (List Tok)} {xs : List Expr} : Opens k stack ts → Derives 13 us f →
    List.Forall₂ (Derives 1) vss xs →
    Opens 1 (.arguments f xs :: stack)
      (ts ++ (us ++ Tok.mark ['('] :: vss.flatMap (· ++ [Tok.mark [',']])))
  | index {k : Nat} {stack : List Frame} {ts us : List Tok} {a : Expr} : Opens k stack ts →
    Derives 13 us a → Opens 1 (.index a :: stack) (ts ++ (us ++ [Tok.mark ['[']]))
  | unary {k : Nat} {stack : List Frame} {ts : List Tok} {m : List Char} {op : UnOp} :
    Opens k stack ts → unOp? m = some op → Opens 11 (.unary op :: stack) (ts ++ [Tok.mark m])
  | cast {k : Nat} {stack : List Frame} {ts : List Tok} {type : List Char} :
    Opens k stack ts → typeNames.contains type = true →
    Opens 11 (.cast type :: stack)
      (ts ++ [Tok.mark ['('], .word type, Tok.mark ['*'], Tok.mark [')']])
  | binary {k : Nat} {stack : List Frame} {ts us : List Tok} {m : List Char} {op : BinaryOp}
    {x : Expr} : Opens k stack ts → k ≤ precedence op → binaryOp? m = some op →
    Derives (precedence op) us x →
    Opens (precedence op + 1) (.binary op x :: stack) (ts ++ (us ++ [Tok.mark m]))

theorem precedence_le (op : BinaryOp) : 1 ≤ precedence op ∧ precedence op ≤ 10 := by
  cases op <;> decide

theorem Opens.le {k : Nat} {stack : List Frame} {ts : List Tok} (h : Opens k stack ts) :
    k ≤ 11 := by
  cases h with
  | @binary _ _ _ _ _ op _ _ _ _ _ => exact Nat.succ_le_succ (precedence_le op).2
  | _ => decide

/-- The tokens read so far are those of the stack and then those of an operand, which has the level
that it must have there and at least the one given. -/
def Stands (level : Nat) (used : List Tok) (stack : List Frame) (x : Expr) : Prop :=
  ∃ k n before tokens, Opens k stack before ∧ Derives n tokens x ∧ k ≤ n ∧ level ≤ n ∧
    used = before ++ tokens

/-- Closing what is open in front of an operand turns derivations into derivations. -/
theorem Stands.close {level : Nat} (hlevel : level ≤ 11) {used : List Tok} {stack : List Frame}
    {x : Expr} (h : Stands level used stack x) :
    Stands level used (close level stack x).1 (close level stack x).2 := by
  fun_induction C11.close level stack x with
  | case1 op stack x ih =>
    obtain ⟨k, n, before, tokens, hopens, hx, hk, -, rfl⟩ := h
    cases hopens with
    | @unary j _ ts m _ hstack hm =>
      have hle := hstack.le
      exact ih ⟨j, 12, ts, Tok.mark m :: tokens, hstack, .unary hm (hx.of_le hk), by omega,
        by omega, by simp⟩
  | case2 type stack x ih =>
    obtain ⟨k, n, before, tokens, hopens, hx, hk, -, rfl⟩ := h
    cases hopens with
    | @cast j _ ts _ hstack htype =>
      exact ih ⟨j, 11, ts, _, hstack, .cast htype (hx.of_le hk), hstack.le, hlevel, by simp⟩
  | case3 op left stack x hle ih =>
    obtain ⟨k, n, before, tokens, hopens, hx, hk, -, rfl⟩ := h
    cases hopens with
    | @binary j _ ts us m _ _ hstack hj hm hleft =>
      exact ih ⟨j, precedence op, ts, us ++ Tok.mark m :: tokens, hstack,
        .binary hm hleft (hx.of_le hk), hj, hle, by simp⟩
  | case4 => exact h
  | case5 => exact h

/-- What stays open behind brackets binds less strongly than the operator that comes. -/
theorem Opens.le_of_close {level : Nat} (hlevel : 1 ≤ level) {stack : List Frame} {x : Expr}
    {k : Nat} {before : List Tok} (h : Opens k (close level stack x).1 before) : k ≤ level := by
  fun_induction C11.close level stack x with
  | case1 op stack x ih => exact ih h
  | case2 type stack x ih => exact ih h
  | case3 op left stack x hle ih => exact ih h
  | case4 op left stack x hlt =>
    cases h
    omega
  | case5 stack x hunary hcast hbinary =>
    cases h with
    | unary => exact absurd rfl (hunary _ _)
    | cast => exact absurd rfl (hcast _ _)
    | binary => exact absurd rfl (hbinary _ _ _)
    | _ => exact hlevel

/-- The tokens read so far, for each state of reading. -/
def State.Holds (used : List Tok) : State → Prop
  | .operand stack => ∃ k, Opens k stack used
  | .operator stack x => Stands 13 used stack x
  | .castType stack type => typeNames.contains type = true ∧
    ∃ k before, Opens k stack before ∧ used = before ++ [Tok.mark ['('], .word type]
  | .castPointer stack type => typeNames.contains type = true ∧
    ∃ k before, Opens k stack before ∧ used = before ++ [Tok.mark ['('], .word type, Tok.mark ['*']]

theorem listed_append_singleton (vss : List (List Tok)) (us : List Tok) :
    listed (vss ++ [us]) = vss.flatMap (· ++ [Tok.mark [',']]) ++ us := by
  induction vss with
  | nil => rfl
  | cons vs vss ih =>
    cases vss with
    | nil => simp [listed]
    | cons ws vss =>
      rw [List.cons_append, List.cons_append, listed, ← List.cons_append, ih]
      simp

namespace State

variable {used : List Tok} {stack : List Frame} {x : Expr} {m : List Char} {s : State}

theorem holds_stepOperand {k : Nat} (h : Opens k stack used)
    (hstep : stepOperand stack m = some s) : s.Holds (used ++ [Tok.mark m]) := by
  unfold stepOperand at hstep
  split at hstep
  · next op hm =>
    cases hstep
    exact ⟨11, .unary h hm⟩
  · split at hstep
    · next hm =>
      cases hstep
      subst hm
      exact ⟨1, .paren h⟩
    · split at hstep
      · next hm =>
        subst hm
        split at hstep
        · next callee stack =>
          cases hstep
          cases h with
          | @arguments j _ ts us _ vss _ hstack hf hargs =>
            cases hargs
            exact ⟨j, 13, ts, _, hstack, .call hf .nil, by have := hstack.le; omega, Nat.le_refl _,
              by simp [listed]⟩
        · cases hstep
      · cases hstep

/-- A stack that is closed up to its last bracket, in front of an operand of any level. -/
theorem holds_closeParen {p : List Frame × Expr} (h : Stands 0 used p.1 p.2)
    (hstep : closeParen p = some s) : s.Holds (used ++ [Tok.mark [')']]) := by
  unfold closeParen at hstep
  obtain ⟨k, n, before, tokens, hopens, hx, hk, -, rfl⟩ := h
  split at hstep
  · cases hstep
    cases hopens with
    | @paren j _ ts hstack =>
      exact ⟨j, 14, ts, _, hstack, .paren (hx.of_le hk), by have := hstack.le; omega, by decide,
        by simp⟩
  · cases hstep
    cases hopens with
    | @arguments j _ ts us _ vss _ hstack hf hargs =>
      have hall : List.Forall₂ (Derives 1) (vss ++ [tokens]) _ :=
        List.rel_append hargs (.cons (hx.of_le hk) .nil)
      exact ⟨j, 13, ts, _, hstack, .call hf hall, by have := hstack.le; omega, Nat.le_refl _,
        by simp [listed_append_singleton]⟩
  · cases hstep

theorem holds_closeIndex {p : List Frame × Expr} (h : Stands 0 used p.1 p.2)
    (hstep : closeIndex p = some s) : s.Holds (used ++ [Tok.mark [']']]) := by
  unfold closeIndex at hstep
  obtain ⟨k, n, before, tokens, hopens, hx, hk, -, rfl⟩ := h
  split at hstep
  · cases hstep
    cases hopens with
    | @index j _ ts us _ hstack ha =>
      exact ⟨j, 13, ts, _, hstack, .index ha (hx.of_le hk), by have := hstack.le; omega,
        Nat.le_refl _, by simp⟩
  · cases hstep

theorem holds_nextArgument {p : List Frame × Expr} (h : Stands 0 used p.1 p.2)
    (hstep : nextArgument p = some s) : s.Holds (used ++ [Tok.mark [',']]) := by
  unfold nextArgument at hstep
  obtain ⟨k, n, before, tokens, hopens, hx, hk, -, rfl⟩ := h
  split at hstep
  · cases hstep
    cases hopens with
    | @arguments j _ ts us _ vss _ hstack hf hargs =>
      have hall : List.Forall₂ (Derives 1) (vss ++ [tokens]) _ :=
        List.rel_append hargs (.cons (hx.of_le hk) .nil)
      refine ⟨1, ?_⟩
      simpa using Opens.arguments hstack hf hall
  · cases hstep

theorem holds_stepOperator (h : Stands 13 used stack x) (hstep : stepOperator stack x m = some s) :
    s.Holds (used ++ [Tok.mark m]) := by
  have hweak {level : Nat} (hlevel : level ≤ 11) : Stands level used stack x := by
    obtain ⟨k, n, before, tokens, hopens, hx, hk, hn, hused⟩ := h
    exact ⟨k, n, before, tokens, hopens, hx, hk, by omega, hused⟩
  have hclosed := (hweak (Nat.zero_le _)).close (Nat.zero_le _)
  unfold stepOperator at hstep
  split at hstep
  · next hm =>
    cases hstep
    subst hm
    obtain ⟨k, n, before, tokens, hopens, hx, -, hn, rfl⟩ := h
    refine ⟨1, ?_⟩
    simpa using Opens.arguments hopens (hx.of_le hn) .nil
  split at hstep
  · next hm =>
    cases hstep
    subst hm
    obtain ⟨k, n, before, tokens, hopens, hx, -, hn, rfl⟩ := h
    refine ⟨1, ?_⟩
    simpa using Opens.index hopens (hx.of_le hn)
  split at hstep
  · next hm =>
    subst hm
    exact holds_closeParen hclosed hstep
  split at hstep
  · next hm =>
    subst hm
    exact holds_closeIndex hclosed hstep
  split at hstep
  · next hm =>
    subst hm
    exact holds_nextArgument hclosed hstep
  · obtain ⟨op, hop, hnext⟩ := Option.map_eq_some_iff.mp hstep
    have hprec := precedence_le op
    have hlevel : precedence op ≤ 11 := by omega
    obtain ⟨k, n, before, tokens, hopens, hx, hk, hn, rfl⟩ := (hweak hlevel).close hlevel
    have hle := hopens.le_of_close hprec.1
    cases hnext
    refine ⟨precedence op + 1, ?_⟩
    simpa using Opens.binary hopens hle hop (hx.of_le hn)

/-- One token further, the tokens read so far still stand for what the state holds. -/
theorem Holds.step {s' : State} (h : s.Holds used) {t : Tok} (hstep : s.step t = some s') :
    s'.Holds (used ++ [t]) := by
  unfold State.step at hstep
  split at hstep
  · next stack w =>
    obtain ⟨k, hopens⟩ := h
    split at hstep
    · next hw =>
      cases hstep
      have hle := hopens.le
      exact ⟨k, 14, used, [.word w], hopens, .word hw, by omega, by decide, rfl⟩
    split at hstep
    · next htype =>
      split at hstep
      · cases hstep
        cases hopens with
        | @paren j _ ts hstack => exact ⟨htype, j, ts, hstack, by simp⟩
      · cases hstep
    · cases hstep
  · next stack n =>
    obtain ⟨k, hopens⟩ := h
    cases hstep
    have hle := hopens.le
    exact ⟨k, 14, used, [.number n], hopens, .number, by omega, by decide, rfl⟩
  · obtain ⟨k, hopens⟩ := h
    exact holds_stepOperand hopens hstep
  · exact holds_stepOperator h hstep
  · obtain ⟨htype, k, before, hopens, rfl⟩ := h
    split at hstep
    · next hm =>
      cases hstep
      subst hm
      exact ⟨htype, k, before, hopens, by simp⟩
    · cases hstep
  · obtain ⟨htype, k, before, hopens, rfl⟩ := h
    split at hstep
    · next hm =>
      cases hstep
      subst hm
      refine ⟨11, ?_⟩
      simpa using Opens.cast hopens htype
    · cases hstep
  · cases hstep

theorem Holds.finish (h : s.Holds used) (hfinish : s.finish = some x) : Derives 1 used x := by
  unfold State.finish at hfinish
  split at hfinish
  · next stack y =>
    split at hfinish
    · next z hclose =>
      cases hfinish
      obtain ⟨k, n, before, tokens, hopens, hy, hk, -, hused⟩ := h
      obtain ⟨k, n, before, tokens, hopens, hx, hk, -, rfl⟩ :=
        Stands.close (Nat.zero_le _) ⟨k, n, before, tokens, hopens, hy, hk, Nat.zero_le _, hused⟩
      rw [hclose] at hopens hx
      cases hopens
      exact hx.of_le hk
    · cases hfinish
  · cases hfinish

end State

theorem derives_of_takeFrom {used ts rest : List Tok} {s : State} (h : s.Holds used) {x : Expr}
    (htake : takeFrom s ts = some (x, rest)) :
    ∃ more, ts = more ++ rest ∧ Derives 1 (used ++ more) x := by
  induction ts generalizing s used with
  | nil =>
    obtain ⟨y, hy, heq⟩ := Option.map_eq_some_iff.mp htake
    cases heq
    exact ⟨[], rfl, by rw [List.append_nil]; exact h.finish hy⟩
  | cons t ts ih =>
    rw [takeFrom] at htake
    split at htake
    · next next hstep =>
      obtain ⟨more, rfl, hx⟩ := ih (h.step hstep) htake
      exact ⟨t :: more, rfl, by simpa using hx⟩
    · obtain ⟨y, hy, heq⟩ := Option.map_eq_some_iff.mp htake
      cases heq
      exact ⟨[], rfl, by rw [List.append_nil]; exact h.finish hy⟩

/-- An expression that is read is derived from the tokens in front by the grammar of C. -/
theorem derives_of_take? {ts rest : List Tok} {x : Expr} (h : Expr.take? ts = some (x, rest)) :
    ∃ used, ts = used ++ rest ∧ Derives 1 used x := by
  have hstart : (State.operand []).Holds [] := ⟨1, .nil⟩
  exact derives_of_takeFrom hstart h

end RootedC.C11
