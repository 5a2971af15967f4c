import RootedC.Proofs.Token.Spelling

/-!
Reading C text into tokens by maximal munch: the longest word, number or punctuator that a text
starts with is its first token. Comments and literals are not read.
-/
namespace RootedC.C11

/-- A word, a number or a punctuator, as it is written. -/
inductive Tok where
  | word (text : List Char)
  | number (text : List Char)
  | mark (text : List Char)
  deriving DecidableEq, Repr

def Tok.text : Tok → List Char
  | word text | number text | mark text => text

def isWord (w : List Char) : Bool := w.head?.any Pattern.isWordStart && w.all Pattern.isWordPart

def isSpace (c : Char) : Bool :=
  c == ' ' || c == '\n' || c == '\t' || c == '\x0b' || c == '\x0c'

/-- The punctuators of C11, longer ones first. -/
def punctuators : List (List Char) :=
  ["%:%:", "...", "<<=", ">>=", "->", "++", "--", "<<", ">>", "<=", ">=", "==", "!=", "&&", "||",
    "*=", "/=", "%=", "+=", "-=", "&=", "^=", "|=", "##", "<:", ":>", "<%", "%>", "%:", "[", "]",
    "(", ")", "\x7b", "\x7d", ".", "&", "*", "+", "-", "~", "!", "/", "%", "<", ">", "^", "|", "?",
    ":", ";", "=", ",", "#"].map String.toList

/-- The longest punctuator that a text starts with. -/
def punctuator? (cs : List Char) : Option (List Char) := punctuators.find? (·.isPrefixOf cs)

/-- What a preprocessing number may have in it, signs apart. -/
def isNumberPart (c : Char) : Bool := Pattern.isWordPart c || c == '.'

/-- The rest of a preprocessing number: digits, letters, dots, and signs behind exponent letters. -/
def numberTail : List Char → List Char × List Char
  | [] => ([], [])
  | [c] => if isNumberPart c then ([c], []) else ([], [c])
  | c :: d :: rest =>
    if ['e', 'E', 'p', 'P'].contains c && ['+', '-'].contains d then
      let (text, rest) := numberTail rest
      (c :: d :: text, rest)
    else if isNumberPart c then
      let (text, rest) := numberTail (d :: rest)
      (c :: text, rest)
    else ([], c :: d :: rest)

/-- The first token of a text that starts with `c`, and the text behind it. -/
def Tok.take? (c : Char) (cs : List Char) : Option (Tok × List Char) :=
  if Pattern.isWordStart c then
    some (.word (c :: cs.takeWhile Pattern.isWordPart), cs.dropWhile Pattern.isWordPart)
  else if c.isDigit || c == '.' && cs.head?.any Char.isDigit then
    some (.number (c :: (numberTail cs).1), (numberTail cs).2)
  else if c == '/' && cs.head?.any (['/', '*'].contains ·) then none
  else (punctuator? (c :: cs)).map fun p => (.mark p, (c :: cs).drop p.length)

theorem append_numberTail (cs : List Char) : (numberTail cs).1 ++ (numberTail cs).2 = cs := by
  fun_induction numberTail cs with
  | case1 => rfl
  | case2 | case3 => rfl
  | case4 c d rest _ text rest' heq ih =>
    rw [heq] at ih
    simp [← ih]
  | case5 c d rest _ _ text rest' heq ih =>
    rw [heq] at ih
    simp [← ih]
  | case6 => rfl

theorem ne_nil_of_mem_punctuators : ∀ p ∈ punctuators, p ≠ [] := by decide

theorem Tok.length_lt_of_take? {c : Char} {cs rest : List Char} {t : Tok}
    (h : take? c cs = some (t, rest)) : rest.length < (c :: cs).length := by
  unfold take? at h
  split at h
  · cases h
    exact Nat.lt_succ_of_le (List.dropWhile_sublist _).length_le
  · split at h
    · cases h
      have := congrArg List.length (append_numberTail cs)
      rw [List.length_append] at this
      simp only [List.length_cons]
      omega
    · split at h
      · cases h
      · obtain ⟨p, hp, hrest⟩ := Option.map_eq_some_iff.mp h
        cases hrest
        have hlen : 0 < p.length :=
          List.length_pos_iff.mpr (ne_nil_of_mem_punctuators p (List.mem_of_find?_eq_some hp))
        simp only [List.length_drop, List.length_cons]
        omega

/-- The tokens of a text. -/
def lex : List Char → Option (List Tok)
  | [] => some []
  | c :: cs =>
    if isSpace c then lex cs
    else
      match _h : Tok.take? c cs with
      | some (t, rest) => (lex rest).map (t :: ·)
      | none => none
termination_by cs => cs.length
decreasing_by
  · exact Nat.lt_succ_self _
  · exact Tok.length_lt_of_take? _h

theorem isSpace_of_isWordPart {c : Char} (h : Pattern.isWordPart c = true) : isSpace c = false := by
  refine Bool.eq_false_iff.mpr fun hc => ?_
  simp only [isSpace, Bool.or_eq_true, beq_iff_eq] at hc
  rcases hc with (((rfl | rfl) | rfl) | rfl) | rfl <;> revert h <;> decide

theorem isWordPart_of_isDigit {c : Char} (h : c.isDigit = true) : Pattern.isWordPart c = true := by
  simp [Pattern.isWordPart, Char.isAlphanum, h]

theorem numberTail_cons {c : Char} (hc : isNumberPart c = true)
    (he : ['e', 'E', 'p', 'P'].contains c = false) (rest : List Char) :
    numberTail (c :: rest) = (c :: (numberTail rest).1, (numberTail rest).2) := by
  cases rest with
  | nil => simp [numberTail, hc]
  | cons d rest =>
    simp only [numberTail, he, Bool.false_and, Bool.false_eq_true, if_false, hc, if_true]

theorem numberTail_digit {c : Char} (h : c.isDigit = true) (rest : List Char) :
    numberTail (c :: rest) = (c :: (numberTail rest).1, (numberTail rest).2) := by
  have hc : isNumberPart c = true := by simp [isNumberPart, isWordPart_of_isDigit h]
  refine numberTail_cons hc (Bool.eq_false_iff.mpr fun he => ?_) rest
  have hall : ['e', 'E', 'p', 'P'].all (fun e => !e.isDigit) = true := by decide
  have hdigit := List.all_eq_true.mp hall c (by simpa using he)
  rw [h] at hdigit
  cases hdigit

theorem numberTail_digits {ds rest : List Char} (h : ds.all Char.isDigit = true)
    (hrest : rest.head?.all (fun c => !isNumberPart c) = true) :
    numberTail (ds ++ rest) = (ds, rest) := by
  induction ds with
  | nil =>
    match rest with
    | [] => rfl
    | [c] =>
      have hc : isNumberPart c = false := by simpa using hrest
      simp [numberTail, hc]
    | c :: d :: rest =>
      have hc : isNumberPart c = false := by simpa using hrest
      have he : ['e', 'E', 'p', 'P'].contains c = false := by
        refine Bool.eq_false_iff.mpr fun he => ?_
        have hall : ['e', 'E', 'p', 'P'].all isNumberPart = true := by decide
        rw [List.all_eq_true.mp hall c (by simpa using he)] at hc
        cases hc
      simp only [List.nil_append, numberTail, he, hc, Bool.false_and, Bool.false_eq_true, if_false]
  | cons c ds ih =>
    rw [List.all_cons, Bool.and_eq_true] at h
    rw [List.cons_append, numberTail_digit h.1, ih h.2]

theorem head_of_mem_punctuators : ∀ p ∈ punctuators,
    p.head?.all (fun c => !isSpace c && !Pattern.isWordStart c && !c.isDigit) = true := by
  decide +kernel

theorem punctuators_sorted : punctuators.Pairwise fun p q => q.length ≤ p.length := by
  decide +kernel

/-- The first punctuator of the table that fits is the longest one. -/
theorem longest_of_punctuator? {cs p : List Char} (h : punctuator? cs = some p) :
    p ∈ punctuators ∧ p <+: cs ∧ ∀ q ∈ punctuators, q <+: cs → q.length ≤ p.length := by
  obtain ⟨hfits, before, after, htable, hbefore⟩ := List.find?_eq_some_iff_append.mp h
  refine ⟨List.mem_of_find?_eq_some h, List.isPrefixOf_iff_prefix.mp hfits, fun q hq hfit => ?_⟩
  -- what fits does not stand before `p` in the table, and what stands behind `p` is not longer
  have hsorted := punctuators_sorted
  rw [htable, List.pairwise_append, List.pairwise_cons] at hsorted
  rw [htable, List.mem_append, List.mem_cons] at hq
  rcases hq with hq | rfl | hq
  · have hmiss := hbefore q hq
    rw [List.isPrefixOf_iff_prefix.mpr hfit] at hmiss
    cases hmiss
  · exact Nat.le_refl _
  · exact hsorted.2.1.1 q hq

theorem punctuator?_eq_some {p rest : List Char} (hp : p ∈ punctuators)
    (hlong : ∀ q ∈ punctuators, q <+: p ++ rest → q.length ≤ p.length) :
    punctuator? (p ++ rest) = some p := by
  have hfits : p <+: p ++ rest := List.prefix_append p rest
  obtain ⟨q, hq⟩ : ∃ q, punctuator? (p ++ rest) = some q :=
    Option.isSome_iff_exists.mp
      (List.find?_isSome.mpr ⟨p, hp, List.isPrefixOf_iff_prefix.mpr hfits⟩)
  obtain ⟨hmem, hqfits, hqlong⟩ := longest_of_punctuator? hq
  have hlen : q.length = p.length := Nat.le_antisymm (hlong q hmem hqfits) (hqlong p hp hfits)
  rw [hq, List.IsPrefix.eq_of_length (List.prefix_of_prefix_length_le hqfits hfits hlen.le) hlen]

/-- May stand in a punctuator behind another character, or open a comment. -/
def isMarkRest (c : Char) : Bool :=
  [':', '.', '<', '=', '>', '+', '-', '&', '|', '#', '%', '/', '*'].contains c

theorem isMarkRest_of_isDigit {c : Char} (h : c.isDigit = true) : isMarkRest c = false := by
  refine Bool.eq_false_iff.mpr fun hc => ?_
  have hall : [':', '.', '<', '=', '>', '+', '-', '&', '|', '#', '%', '/', '*'].all
    (fun c => !c.isDigit) = true := by decide
  have hdigit := List.all_eq_true.mp hall c (by simpa [isMarkRest] using hc)
  rw [h] at hdigit
  cases hdigit

theorem isMarkRest_tail : ∀ p ∈ punctuators, p.tail.all isMarkRest = true := by decide

/-- In front of `rest`, a text is read as these tokens. -/
def Reads (cs : List Char) (ts : List Tok) (rest : List Char) : Prop :=
  lex (cs ++ rest) = (lex rest).map (ts ++ ·)

namespace Reads

variable {a b rest : List Char} {ts us : List Tok}

theorem nil : Reads [] [] rest := by simp [Reads]

theorem append (ha : Reads a ts (b ++ rest)) (hb : Reads b us rest) :
    Reads (a ++ b) (ts ++ us) rest := by
  unfold Reads at *
  rw [List.append_assoc, ha, hb, Option.map_map]
  congr 1
  funext vs
  simp

theorem all (h : Reads a ts []) : lex a = some ts := by
  simpa [Reads, lex] using h

theorem space {c : Char} (hc : isSpace c = true) : Reads [c] [] rest := by
  simp [Reads, lex, hc]

theorem of_take {c : Char} {t : Tok} (hc : isSpace c = false)
    (h : Tok.take? c (a ++ rest) = some (t, rest)) : Reads (c :: a) [t] rest := by
  rw [Reads, List.cons_append, lex]
  simp only [hc, Bool.false_eq_true, if_false]
  split
  · next t' rest' heq =>
    rw [h] at heq
    cases heq
    rfl
  · next heq =>
    rw [h] at heq
    cases heq

/-- A word ends where no letter, digit or underscore follows. -/
theorem word {w : List Char} (hw : w.head?.any Pattern.isWordStart = true)
    (hall : w.all Pattern.isWordPart = true)
    (hrest : rest.head?.all (fun c => !Pattern.isWordPart c) = true) : Reads w [.word w] rest := by
  cases w with
  | nil => cases hw
  | cons c w =>
    rw [List.all_cons, Bool.and_eq_true] at hall
    obtain ⟨htake, hdrop⟩ := Pattern.longest_run_iff.mpr (⟨rfl, hall.2, hrest⟩ : w ++ rest = _ ∧ _)
    have hstart : Pattern.isWordStart c = true := hw
    refine of_take (isSpace_of_isWordPart hall.1) ?_
    rw [Tok.take?, if_pos hstart, htake, hdrop]

/-- Digits end where nothing follows that a number can have in it. -/
theorem number {ds : List Char} (hne : ds ≠ []) (h : ds.all Char.isDigit = true)
    (hrest : rest.head?.all (fun c => !isNumberPart c) = true) : Reads ds [.number ds] rest := by
  cases ds with
  | nil => exact absurd rfl hne
  | cons c ds =>
    rw [List.all_cons, Bool.and_eq_true] at h
    refine of_take (isSpace_of_isWordPart (isWordPart_of_isDigit h.1)) ?_
    simp [Tok.take?, Pattern.isWordStart_of_isDigit h.1, h.1, numberTail_digits h.2 hrest]

/-- A punctuator is read where no longer one stands and no comment starts. -/
theorem mark {p : List Char} (hp : p ∈ punctuators) (hdot : p.head? ≠ some '.')
    (hlong : ∀ q ∈ punctuators, q <+: p ++ rest → q.length ≤ p.length)
    (hcomment : p = ['/'] → rest.head?.any (['/', '*'].contains ·) = false) :
    Reads p [.mark p] rest := by
  have hhead := head_of_mem_punctuators p hp
  have hslash : ∀ q ∈ punctuators, q.head? = some '/' → q = ['/'] ∨ q = ['/', '='] := by decide
  have hfirst := punctuator?_eq_some hp hlong
  cases p with
  | nil => exact absurd rfl (ne_nil_of_mem_punctuators _ hp)
  | cons c p =>
    simp only [List.head?_cons, Option.all_some, Bool.and_eq_true, Bool.not_eq_true'] at hhead
    obtain ⟨⟨hspace, hstart⟩, hdigit⟩ := hhead
    have hnoDot : (c == '.' && (p ++ rest).head?.any Char.isDigit) = false := by
      have hc : c ≠ '.' := fun h => hdot (by rw [h]; rfl)
      simp [hc]
    have hnoComment : (c == '/' && (p ++ rest).head?.any (['/', '*'].contains ·)) = false := by
      by_cases hcs : c = '/'
      · subst hcs
        rcases hslash _ hp rfl with h | h
        · cases h
          simpa using hcomment rfl
        · cases h
          rfl
      · simp [hcs]
    refine of_take hspace ?_
    rw [List.cons_append] at hfirst
    simp only [Tok.take?, hstart, hdigit, hnoDot, hnoComment, hfirst, Bool.false_eq_true, if_false,
      Bool.or_false, Option.map_some, List.length_cons, List.drop_succ_cons, List.drop_left]

/-- A punctuator that no other one starts with is read before any text. -/
theorem solid {p : List Char} (hp : p ∈ punctuators) (hdot : p.head? ≠ some '.')
    (hslash : p ≠ ['/']) (hsolid : ∀ q ∈ punctuators, p <+: q → q = p) : Reads p [.mark p] rest := by
  refine mark hp hdot (fun q hq hfits => ?_) fun h => absurd h hslash
  by_contra hlen
  have hpq := List.prefix_of_prefix_length_le (List.prefix_append p rest) hfits (by omega)
  rw [hsolid q hq hpq] at hlen
  exact hlen (Nat.le_refl _)

/-- A punctuator is read before a character that continues none. -/
theorem lone {p : List Char} (hp : p ∈ punctuators) (hdot : p.head? ≠ some '.')
    (hrest : rest.head?.all (fun c => !isMarkRest c) = true) : Reads p [.mark p] rest := by
  refine mark hp hdot (fun q hq hfits => ?_) fun _ => ?_
  · by_contra hlen
    obtain ⟨more, rfl⟩ := List.prefix_of_prefix_length_le (List.prefix_append p rest) hfits
      (by omega)
    obtain ⟨c, p, rfl⟩ := List.exists_cons_of_ne_nil (ne_nil_of_mem_punctuators p hp)
    cases more with
    | nil => simp at hlen
    | cons d more =>
      obtain ⟨after, hafter⟩ := (List.prefix_append_right_inj _).mp hfits
      have hd := List.all_eq_true.mp (isMarkRest_tail _ hq) d (by simp)
      rw [← hafter] at hrest
      simp [hd] at hrest
  · cases rest with
    | nil => rfl
    | cons d rest =>
      have hd : isMarkRest d = false := by simpa using hrest
      refine Bool.eq_false_iff.mpr fun h => ?_
      have hall : ['/', '*'].all isMarkRest = true := by decide
      have hd' := List.all_eq_true.mp hall d (by simpa using h)
      rw [hd] at hd'
      cases hd'

end Reads

end RootedC.C11
