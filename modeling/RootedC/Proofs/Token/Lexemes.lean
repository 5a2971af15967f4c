import Mathlib
import RootedC.Token.Scan

/-!
What a lexeme can be. A pattern cuts a text exactly where it matches, a string literal ends exactly
behind its payload, and so each lexeme is a run of blanks, a comment, or a token in writing. A
lexeme that ends before the text does is taken without the rest of the text, too.
-/
namespace RootedC

namespace StringLiteral

/-- What may stand between the quotes. -/
def isPayload : List Char → Bool
  | [] => true
  | ['\\'] => false
  | '\\' :: c :: rest => isEscape c && isPayload rest
  | c :: rest => c != '"' && c != '\n' && isPayload rest

/-- Neither at the end nor before another character: then no backslash. -/
theorem ne_backslash {c : Char} {rest : List Char} (hb : c = '\\' → rest = [] → False)
    (hb' : ∀ d more, c = '\\' → rest = d :: more → False) : c ≠ '\\' := by
  rintro rfl
  cases rest with
  | nil => exact hb rfl rfl
  | cons d more => exact hb' d more rfl rfl

theorem isPayload_cons {c : Char} (hc : c ≠ '\\') (rest : List Char) :
    isPayload (c :: rest) = (c != '"' && c != '\n' && isPayload rest) := by
  rw [isPayload]
  all_goals simp [hc]

theorem scan_cons {c : Char} (hq : c ≠ '"') (hn : c ≠ '\n') (hb : c ≠ '\\') (rest : List Char) :
    scan (c :: rest) = (scan rest).prepend [c] := by
  rw [scan]
  all_goals simp [hq, hn, hb]

/-- A scan finds the closing quote exactly behind a payload. -/
theorem scan_eq_closed_iff {cs payload rest : List Char} :
    scan cs = .closed payload rest ↔ cs = payload ++ '"' :: rest ∧ isPayload payload = true := by
  constructor
  · intro h
    refine ⟨eq_of_scan_eq_closed h, ?_⟩
    fun_induction scan cs generalizing payload with
    | case1 | case3 | case4 | case5 | case7 => cases h
    | case2 => cases h; rfl
    | case6 c r hc he ih =>
      obtain ⟨p, hp, rfl⟩ := prepend_eq_closed h
      simp [isPayload, he, ih hp]
    | case8 c r hq hn hb hb' ih =>
      obtain ⟨p, hp, rfl⟩ := prepend_eq_closed h
      simp [isPayload_cons (ne_backslash hb hb'), ih hp, show c ≠ '"' from hq,
        show c ≠ '\n' from hn]
  · rintro ⟨rfl, h⟩
    fun_induction isPayload payload with
    | case1 => rfl
    | case2 => cases h
    | case3 c r ih =>
      obtain ⟨hc, hr⟩ := Bool.and_eq_true_iff.mp h
      have hn : c ≠ '\n' := by
        rintro rfl
        cases hc
      simp [scan, hn, hc, ih hr, Scan.prepend]
    | case4 c r hb hb' ih =>
      simp only [Bool.and_eq_true, bne_iff_ne] at h
      rw [List.cons_append, scan_cons h.1.1 h.1.2 (ne_backslash hb hb'), ih h.2]
      rfl

end StringLiteral

namespace Kind

/-- Whether a token of this kind can have the value `v`. -/
def spells (k : Kind) (v : List Char) : Bool :=
  match k with
  | endOfInput => false
  | number => !v.isEmpty && v.all Char.isDigit
  | string => StringLiteral.isPayload v
  | identifier =>
    v.head?.any Pattern.isWordStart && v.all Pattern.isWordPart &&
      (reserved.lookup (String.ofList v)).isNone
  | k => reserved.contains (String.ofList v, k) || Pattern.table.contains (.fixed k v)

/-- The text of a token of kind `k` and value `v`. -/
def written (k : Kind) (v : List Char) : List Char :=
  if k = string then '"' :: v ++ ['"'] else v

theorem spells_of_mem_reserved :
    ∀ w ∈ reserved, w.2.spells w.1.toList = true ∧ w.2.written w.1.toList = w.1.toList := by
  decide

theorem spells_of_mem_table {k : Kind} {v : List Char} (h : Pattern.fixed k v ∈ Pattern.table) :
    k.spells v = true ∧ k.written v = v := by
  have hall : ∀ p ∈ Pattern.table, (match p with
      | .fixed k v => k.spells v && k.written v == v
      | _ => true) = true := by decide
  simpa using hall _ h

/-- A reserved word has its kind and every other word is an identifier. -/
theorem spells_ofWord {v : List Char} (hs : v.head?.any Pattern.isWordStart = true)
    (hp : v.all Pattern.isWordPart = true) :
    (ofWord (String.ofList v)).spells v = true ∧ (ofWord (String.ofList v)).written v = v := by
  unfold ofWord
  cases h : reserved.lookup (String.ofList v) with
  | none => simp [spells, written, hs, hp, h]
  | some k =>
    obtain ⟨before, after, he, -⟩ := List.lookup_eq_some_iff.mp h
    have hmem : (String.ofList v, k) ∈ reserved := by simp [he]
    simpa using spells_of_mem_reserved _ hmem

end Kind

namespace Pattern

/-- `lexeme` starts in the class `q`, stays in the class `p`, and `rest` does not go on in it. -/
def IsRun (q p : Char → Bool) (lexeme rest : List Char) : Prop :=
  lexeme.head?.any q = true ∧ lexeme.all p = true ∧ rest.head?.all (fun c => !p c) = true

theorem IsRun.eq_cons {q p : Char → Bool} {lexeme rest : List Char}
    (h : IsRun q p lexeme rest) : ∃ c l, lexeme = c :: l ∧ q c = true := by
  cases lexeme with
  | nil => cases h.1
  | cons c l => exact ⟨c, l, rfl, h.1⟩

/-- What a pattern matches in front of `rest`. -/
def Matches : Pattern → List Char → List Char → Prop
  | word => IsRun isWordStart isWordPart
  | digits => IsRun Char.isDigit Char.isDigit
  | blanks => IsRun Text.isBlank Text.isBlank
  | quote => fun lexeme _ => lexeme = ['"']
  | comment => fun lexeme rest =>
    ∃ body, lexeme = '/' :: '/' :: body ∧ body.all (· != '\n') = true ∧
      rest.head?.all (fun c => !(c != '\n')) = true
  | fixed _ spelling => fun lexeme _ => lexeme = spelling

/-- A longest run of characters of one class ends where the class does. -/
theorem longest_run_iff {p : Char → Bool} {cs a b : List Char} :
    cs.takeWhile p = a ∧ cs.dropWhile p = b ↔
      cs = a ++ b ∧ a.all p = true ∧ b.head?.all (fun c => !p c) = true := by
  constructor
  · rintro ⟨rfl, rfl⟩
    refine ⟨List.takeWhile_append_dropWhile.symm, List.all_takeWhile, ?_⟩
    have := List.head?_dropWhile_not p cs
    revert this
    cases (cs.dropWhile p).head? <;> simp
  · rintro ⟨rfl, ha, hb⟩
    have ha : ∀ c ∈ a, p c = true := by simpa using ha
    rw [List.takeWhile_append_of_pos ha, List.dropWhile_append_of_pos ha]
    cases b with
    | nil => simp
    | cons c b =>
      have hc : p c = false := by simpa using hb
      simp [hc]

theorem run_eq_some_iff {q p : Char → Bool} (hqp : ∀ c, q c = true → p c = true) {c : Char}
    {cs lexeme rest : List Char} :
    (if q c then some (c :: cs.takeWhile p, cs.dropWhile p) else none) = some (lexeme, rest) ↔
      c :: cs = lexeme ++ rest ∧ IsRun q p lexeme rest := by
  constructor
  · intro h
    split at h
    next hc =>
      cases h
      obtain ⟨ha, hb, hr⟩ := longest_run_iff.mp ⟨rfl, rfl⟩
      exact ⟨congrArg _ ha, by simpa using hc, by simp [hqp c hc, hb], hr⟩
    next => cases h
  · rintro ⟨he, hq, hp, hr⟩
    cases lexeme with
    | nil => cases hq
    | cons d lexeme =>
      rw [List.cons_append] at he
      obtain ⟨rfl, rfl⟩ := List.cons.inj he
      have hp := Bool.and_eq_true_iff.mp (List.all_cons ▸ hp)
      obtain ⟨ht, hd⟩ := longest_run_iff.mpr ⟨rfl, hp.2, hr⟩
      rw [ht, hd, if_pos (by simpa using hq)]

theorem strip_eq_some_iff {spelling cs rest : List Char} :
    strip spelling cs = some rest ↔ cs = spelling ++ rest := by
  refine ⟨eq_append_of_strip, ?_⟩
  rintro rfl
  induction spelling with
  | nil => rfl
  | cons c spelling ih => simpa [strip] using ih

theorem isWordPart_of_isWordStart (c : Char) (h : isWordStart c = true) : isWordPart c = true := by
  rcases Bool.or_eq_true_iff.mp h with h | h <;> simp [isWordPart, Char.isAlphanum, h]

/-- A pattern cuts a text exactly where it matches. -/
theorem split?_eq_some_iff {p : Pattern} {cs lexeme rest : List Char} :
    p.split? cs = some (lexeme, rest) ↔ cs = lexeme ++ rest ∧ p.Matches lexeme rest := by
  constructor
  · intro h
    refine ⟨eq_append_of_split? h, ?_⟩
    unfold split? at h
    split at h
    · exact ((run_eq_some_iff isWordPart_of_isWordStart).mp h).2
    · exact ((run_eq_some_iff fun _ => id).mp h).2
    · exact ((run_eq_some_iff fun _ => id).mp h).2
    · cases h
      rfl
    · cases h
      obtain ⟨-, hb, hr⟩ := longest_run_iff.mp ⟨rfl, rfl⟩
      exact ⟨_, rfl, hb, hr⟩
    · obtain ⟨r, -, h⟩ := Option.map_eq_some_iff.mp h
      cases h
      rfl
    · cases h
  · rintro ⟨rfl, h⟩
    cases p with
    | word =>
      obtain ⟨c, l, rfl, -⟩ := h.eq_cons
      exact (run_eq_some_iff isWordPart_of_isWordStart).mpr ⟨rfl, h⟩
    | digits | blanks =>
      obtain ⟨c, l, rfl, -⟩ := h.eq_cons
      exact (run_eq_some_iff fun _ => id).mpr ⟨rfl, h⟩
    | quote =>
      cases h
      rfl
    | comment =>
      obtain ⟨body, rfl, hb, hr⟩ := h
      obtain ⟨ht, hd⟩ := longest_run_iff.mpr ⟨rfl, hb, hr⟩
      simp only [List.cons_append, split?, ht, hd]
    | fixed k v =>
      cases h
      simp [split?, strip_eq_some_iff.mpr rfl]

/-- No blank is part of a word. -/
theorem isWordPart_of_isBlank {c : Char} (h : Text.isBlank c = true) : isWordPart c = false := by
  have hn : c ≠ '_' := by
    rintro rfl
    revert h
    decide
  simp [Text.isBlank, Text.inRanges, Text.blankRanges] at h
  simp [isWordPart, Char.isAlphanum, Char.isAlpha, Char.isUpper, Char.isLower, Char.isDigit,
    UInt32.le_iff_toNat_le, hn]
  omega

theorem isDigit_of_isBlank {c : Char} (h : Text.isBlank c = true) : c.isDigit = false := by
  have hw := isWordPart_of_isBlank h
  simp only [isWordPart, Char.isAlphanum, Bool.or_eq_false_iff] at hw
  exact hw.1.2

theorem all_head?_of_append {q : Char → Bool} {rest more : List Char}
    (h : (rest ++ more).head?.all q = true) : rest.head?.all q = true := by
  cases rest with
  | nil => rfl
  | cons c rest => exact h

theorem Matches.of_append {p : Pattern} {lexeme rest more : List Char}
    (h : p.Matches lexeme (rest ++ more)) : p.Matches lexeme rest := by
  cases p with
  | word | digits | blanks => exact ⟨h.1, h.2.1, all_head?_of_append h.2.2⟩
  | comment =>
    obtain ⟨body, hl, hb, hr⟩ := h
    exact ⟨body, hl, hb, all_head?_of_append hr⟩
  | quote | fixed => exact h

/-- A pattern that matches the beginning of a text matches the text. -/
theorem isSome_split?_append {p : Pattern} {cs : List Char} (h : (p.split? cs).isSome = true)
    (more : List Char) : (p.split? (cs ++ more)).isSome = true := by
  obtain ⟨⟨lexeme, rest⟩, hs⟩ := Option.isSome_iff_exists.mp h
  obtain ⟨rfl, hm⟩ := split?_eq_some_iff.mp hs
  cases p with
  | word | digits | blanks =>
    obtain ⟨c, l, rfl, hc⟩ := hm.eq_cons
    simp [split?, hc]
  | quote =>
    cases hm
    rfl
  | comment =>
    obtain ⟨body, rfl, -⟩ := hm
    rfl
  | fixed k v =>
    cases hm
    rw [split?, strip_eq_some_iff.mpr (List.append_assoc ..)]
    rfl

/-- The first pattern that matches stays the first one in front of another rest, if no earlier one
comes to match there. -/
theorem first?_of_rest {p : Pattern} {cs lexeme rest rest' : List Char}
    (h : first? cs = some (p, lexeme, rest)) (hm : p.Matches lexeme rest')
    (hn : ∀ q ∈ table, q.split? cs = none → q.split? (lexeme ++ rest') = none) :
    first? (lexeme ++ rest') = some (p, lexeme, rest') := by
  obtain ⟨earlier, q, later, ht, hq, hearlier⟩ := List.findSome?_eq_some_iff.mp h
  refine List.findSome?_eq_some_iff.mpr ⟨earlier, q, later, ht, ?_, fun r hr => ?_⟩
  · obtain ⟨⟨l, r⟩, hs, he⟩ := Option.map_eq_some_iff.mp hq
    cases he
    rw [split?_eq_some_iff.mpr ⟨rfl, hm⟩]
    rfl
  · rw [Option.map_eq_none_iff]
    exact hn r (by simp [ht, hr]) (Option.map_eq_none_iff.mp (hearlier r hr))

/-- A lexeme that does not reach the end of a text is found without what follows, too. -/
theorem first?_of_append {p : Pattern} {lexeme rest more : List Char}
    (h : first? (lexeme ++ (rest ++ more)) = some (p, lexeme, rest ++ more)) :
    first? (lexeme ++ rest) = some (p, lexeme, rest) := by
  have hm := (split?_eq_some_iff.mp (mem_table_of_first? h).2).2
  refine first?_of_rest h hm.of_append fun q _ hq => ?_
  rw [Option.eq_none_iff_forall_not_mem]
  intro x hx
  have hsome := isSome_split?_append (Option.isSome_of_mem hx) more
  rw [List.append_assoc, hq] at hsome
  cases hsome

end Pattern

namespace Lexeme

/-- The lexeme at the front of a text, and the text after it. -/
def Takes (cs : List Char) (l : Lexeme) (rest : List Char) : Prop :=
  ∃ p lexeme more, Pattern.first? cs = some (p, lexeme, more) ∧
    ofMatch p lexeme more = .ok (l, rest)

theorem take_eq_ok_iff {c : Char} {cs rest : List Char} {l : Lexeme} :
    take c cs = .ok (l, rest) ↔ Takes (c :: cs) l rest := by
  unfold take Takes
  cases Pattern.first? (c :: cs) with
  | none => simp
  | some m =>
    constructor
    · intro h
      exact ⟨_, _, _, rfl, h⟩
    · rintro ⟨p, lexeme, more, hm, h⟩
      cases hm
      exact h

theorem Takes.length_lt {cs rest : List Char} {l : Lexeme} (h : Takes cs l rest) :
    rest.length < cs.length := by
  cases cs with
  | nil =>
    obtain ⟨p, lexeme, more, hf, -⟩ := h
    cases hf
  | cons c cs => exact length_lt_of_take (take_eq_ok_iff.mpr h)

theorem ofMatch_quote_iff {lexeme more rest : List Char} {l : Lexeme} :
    ofMatch .quote lexeme more = .ok (l, rest) ↔
      ∃ payload, more = payload ++ '"' :: rest ∧ StringLiteral.isPayload payload = true ∧
        l = ⟨lexeme ++ payload ++ ['"'], some (.string, payload)⟩ := by
  simp only [ofMatch]
  constructor
  · intro h
    split at h <;> cases h
    next hs =>
      obtain ⟨he, hp⟩ := StringLiteral.scan_eq_closed_iff.mp hs
      exact ⟨_, he, hp, rfl⟩
  · rintro ⟨payload, he, hp, rfl⟩
    rw [StringLiteral.scan_eq_closed_iff.mpr ⟨he, hp⟩]

/-- A lexeme that stands before `more` is taken without it, too. -/
theorem Takes.of_append {text rest more : List Char} {token? : Option (Kind × List Char)}
    (h : Takes (text ++ (rest ++ more)) ⟨text, token?⟩ (rest ++ more)) :
    Takes (text ++ rest) ⟨text, token?⟩ rest := by
  obtain ⟨p, lexeme, after, hf, ho⟩ := h
  cases p with
  | quote =>
    obtain ⟨payload, rfl, hp, hl⟩ := ofMatch_quote_iff.mp ho
    cases hl
    have hq : Pattern.first? (lexeme ++ (payload ++ '"' :: rest ++ more)) =
        some (.quote, lexeme, payload ++ '"' :: rest ++ more) := by simpa using hf
    exact ⟨_, _, _, by simpa using Pattern.first?_of_append hq,
      ofMatch_quote_iff.mpr ⟨payload, rfl, hp, rfl⟩⟩
  | word | digits | blanks | comment | fixed =>
    cases ho
    exact ⟨_, _, _, Pattern.first?_of_append hf, rfl⟩

/-- A lexeme is a run of blanks, a comment, or a token in writing. -/
theorem Takes.cases {cs rest : List Char} {l : Lexeme} (h : Takes cs l rest) :
    (l.token? = none ∧ (Pattern.blanks.Matches l.text rest ∨ Pattern.comment.Matches l.text rest)) ∨
      ∃ k v, k.spells v = true ∧ l = ⟨k.written v, some (k, v)⟩ := by
  obtain ⟨p, lexeme, after, hf, ho⟩ := h
  obtain ⟨hp, hs⟩ := Pattern.mem_table_of_first? hf
  have hm := (Pattern.split?_eq_some_iff.mp hs).2
  cases p with
  | blanks =>
    cases ho
    exact .inl ⟨rfl, .inl hm⟩
  | comment =>
    cases ho
    exact .inl ⟨rfl, .inr hm⟩
  | word =>
    cases ho
    obtain ⟨hk, hw⟩ := Kind.spells_ofWord hm.1 hm.2.1
    exact .inr ⟨_, _, hk, by rw [hw]⟩
  | digits =>
    cases ho
    obtain ⟨c, l, rfl, -⟩ := hm.eq_cons
    exact .inr ⟨.number, _, by simpa [Kind.spells] using hm.2.1, rfl⟩
  | fixed k v =>
    cases ho
    cases hm
    obtain ⟨hk, hw⟩ := Kind.spells_of_mem_table hp
    exact .inr ⟨k, _, hk, by rw [hw]⟩
  | quote =>
    obtain ⟨payload, -, hp, rfl⟩ := ofMatch_quote_iff.mp ho
    cases hm
    exact .inr ⟨.string, payload, hp, rfl⟩

end Lexeme

end RootedC
