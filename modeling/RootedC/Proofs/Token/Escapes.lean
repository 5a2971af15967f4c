import RootedC.Proofs.Token.Gaps

/-!
The grammar of string literals. Between the quotes stand items: characters by themselves and the
five escapes. A scan takes the longest sequence of items; behind it stands the closing quote, or
what stands there is refused at its place.
-/
namespace RootedC

namespace StringLiteral

/-- One item between the quotes: a character that stands for itself, or an escape. -/
inductive IsItem : List Char → Prop
  | plain {c : Char} (hq : c ≠ '"') (hb : c ≠ '\\') (hn : c ≠ '\n') : IsItem [c]
  | escape {c : Char} (hc : c ∈ ['n', 't', 'r', '\\', '"']) : IsItem ['\\', c]

/-- Items one after the other. -/
inductive IsItems : List Char → Prop
  | nil : IsItems []
  | cons {item p : List Char} (hi : IsItem item) (hp : IsItems p) : IsItems (item ++ p)

/-- The longest beginning of a text that is made of items. -/
structure Longest (p cs : List Char) : Prop where
  items : IsItems p
  front : p <+: cs
  length_le : ∀ q, IsItems q → q <+: cs → q.length ≤ p.length

theorem isEscape_iff {c : Char} : isEscape c = true ↔ c ∈ ['n', 't', 'r', '\\', '"'] := by
  simp [isEscape, or_assoc]

/-- Where no item begins. -/
inductive Stuck : List Char → Prop
  | nil : Stuck []
  | quote (rest : List Char) : Stuck ('"' :: rest)
  | lineBreak (rest : List Char) : Stuck ('\n' :: rest)
  | cutEscape : Stuck ['\\']
  | badEscape {c : Char} (hc : c ∉ ['n', 't', 'r', '\\', '"']) (rest : List Char) :
    Stuck ('\\' :: c :: rest)

theorem Stuck.not_item {cs : List Char} (h : Stuck cs) {item : List Char} (hi : IsItem item) :
    ¬ item <+: cs := by
  rintro ⟨rest, he⟩
  cases hi with
  | plain hq hb hn =>
    cases h with
    | nil => cases he
    | quote => exact hq (List.cons.inj he).1
    | lineBreak => exact hn (List.cons.inj he).1
    | cutEscape | badEscape => exact hb (List.cons.inj he).1
  | escape hc =>
    cases h with
    | badEscape hc' =>
      obtain ⟨rfl, -⟩ := List.cons.inj (List.cons.inj he).2
      exact hc' hc
    | nil | quote | lineBreak | cutEscape => cases he

/-- A text with an item in front has no other item there. -/
theorem IsItem.eq_of_append {i j p q : List Char} (hi : IsItem i) (hj : IsItem j)
    (h : i ++ p = j ++ q) : i = j ∧ p = q := by
  cases hi with
  | plain _ hb _ =>
    cases hj with
    | plain => simpa using h
    | escape => exact absurd (List.cons.inj h).1 hb
  | escape =>
    cases hj with
    | plain _ hb _ => exact absurd (List.cons.inj h).1.symm hb
    | escape => simpa [and_assoc] using h

/-- Items in front of a place where none begins are all the items there are. -/
theorem IsItems.longest {p tail : List Char} (hp : IsItems p) (ht : Stuck tail) :
    Longest p (p ++ tail) := by
  refine ⟨hp, List.prefix_append _ _, fun q hq hfront => ?_⟩
  induction hp generalizing q with
  | nil =>
    cases hq with
    | nil => exact Nat.le_refl _
    | cons hi _ => exact absurd ((List.prefix_append _ _).trans hfront) (ht.not_item hi)
  | @cons item p hi _ ih =>
    cases hq with
    | nil => exact Nat.zero_le _
    | @cons item' q hi' hq =>
      obtain ⟨more, he⟩ := hfront
      rw [List.append_assoc, List.append_assoc] at he
      obtain ⟨rfl, he'⟩ := hi'.eq_of_append hi he
      have hle := ih q hq ⟨more, he'⟩
      rw [List.length_append, List.length_append]
      omega

theorem Longest.eq {p q cs : List Char} (hp : Longest p cs) (hq : Longest q cs) : p = q := by
  have hle := hp.length_le q hq.items hq.front
  exact List.IsPrefix.eq_of_length (List.prefix_of_prefix_length_le hp.front hq.front
    (hq.length_le p hp.items hp.front)) (Nat.le_antisymm (hq.length_le p hp.items hp.front) hle)

/-- What a scan finds where items `p` stand before `tail`. -/
inductive Ends (p : List Char) : List Char → Scan → Prop
  | quote (rest : List Char) : Ends p ('"' :: rest) (.closed p rest)
  | nil : Ends p [] .unclosed
  | cutEscape : Ends p ['\\'] .unclosed
  | lineBreak (rest : List Char) : Ends p ('\n' :: rest) (.lineBreak (Text.byteLength p))
  | escapedLineBreak (rest : List Char) :
    Ends p ('\\' :: '\n' :: rest) (.lineBreak (Text.byteLength p))
  | badEscape {c : Char} (hn : c ≠ '\n') (hc : c ∉ ['n', 't', 'r', '\\', '"']) (rest : List Char) :
    Ends p ('\\' :: c :: rest) (.badEscape (Text.byteLength p) c)

theorem Ends.stuck {p tail : List Char} {s : Scan} (h : Ends p tail s) : Stuck tail := by
  cases h with
  | quote => exact .quote _
  | nil => exact .nil
  | cutEscape => exact .cutEscape
  | lineBreak => exact .lineBreak _
  | escapedLineBreak => exact .badEscape (by decide) _
  | badEscape _ hc => exact .badEscape hc _

theorem Ends.prepend {p tail : List Char} {s : Scan} (h : Ends p tail s) (item : List Char) :
    Ends (item ++ p) tail (s.prepend item) := by
  cases h <;> simp only [Scan.prepend, ← Text.byteLength_append]
  case quote => exact .quote _
  case nil => exact .nil
  case cutEscape => exact .cutEscape
  case lineBreak => exact .lineBreak _
  case escapedLineBreak => exact .escapedLineBreak _
  case badEscape c hn hc rest => exact .badEscape hn hc rest

/-- A scan goes through items up to the place where it ends. -/
theorem exists_ends (cs : List Char) :
    ∃ p tail, cs = p ++ tail ∧ IsItems p ∧ Ends p tail (scan cs) := by
  fun_induction scan cs with
  | case1 => exact ⟨[], [], rfl, .nil, .nil⟩
  | case2 rest => exact ⟨[], _, rfl, .nil, .quote rest⟩
  | case3 rest => exact ⟨[], _, rfl, .nil, .lineBreak rest⟩
  | case4 => exact ⟨[], _, rfl, .nil, .cutEscape⟩
  | case5 rest => exact ⟨[], _, rfl, .nil, .escapedLineBreak rest⟩
  | case6 c rest hn hc ih =>
    obtain ⟨p, tail, rfl, hp, ht⟩ := ih
    exact ⟨['\\', c] ++ p, tail, rfl, .cons (.escape (isEscape_iff.mp hc)) hp, ht.prepend _⟩
  | case7 c rest hn hc =>
    exact ⟨[], _, rfl, .nil, .badEscape hn (fun h => hc (isEscape_iff.mpr h)) rest⟩
  | case8 c rest hq hn hb hb' ih =>
    obtain ⟨p, tail, rfl, hp, ht⟩ := ih
    exact ⟨[c] ++ p, tail, rfl, .cons (.plain hq (ne_backslash hb hb') hn) hp, ht.prepend _⟩

theorem Ends.eq {p tail : List Char} {s s' : Scan} (h : Ends p tail s) (h' : Ends p tail s') :
    s = s' := by
  cases h <;> cases h' <;> first | rfl | contradiction

/-- A scan finds exactly what ends the items in front of the text. -/
theorem scan_eq_iff {cs : List Char} {s : Scan} :
    scan cs = s ↔ ∃ p tail, cs = p ++ tail ∧ IsItems p ∧ Ends p tail s := by
  constructor
  · rintro rfl
    exact exists_ends cs
  · rintro ⟨p, tail, rfl, hp, ht⟩
    obtain ⟨q, tail', he, hq, ht'⟩ := exists_ends (p ++ tail)
    have hlongest := hq.longest ht'.stuck
    rw [← he] at hlongest
    obtain rfl := hlongest.eq (hp.longest ht.stuck)
    obtain rfl := List.append_cancel_left he
    exact ht'.eq ht

/-- What is complained about a literal whose opening quote stands at byte `n` and whose items `p`
are followed by `tail`. -/
inductive Refused (file : String) (n : Nat) (p : List Char) : List Char → Diagnostic → Prop
  | lineBreak (rest : List Char) : Refused file n p ('\n' :: rest)
      ⟨.lineBreakInString, .ofByte file (n + 1 + Text.byteLength p)⟩
  | escapedLineBreak (rest : List Char) : Refused file n p ('\\' :: '\n' :: rest)
      ⟨.lineBreakInString, .ofByte file (n + 1 + Text.byteLength p)⟩
  | badEscape {c : Char} (hn : c ≠ '\n') (hc : c ∉ ['n', 't', 'r', '\\', '"']) (rest : List Char) :
    Refused file n p ('\\' :: c :: rest)
      ⟨.badEscape (String.ofList ['\\', c]), .ofByte file (n + 1 + Text.byteLength p)⟩
  | nil : Refused file n p [] ⟨.unclosedString, .ofByte file n⟩
  | cutEscape : Refused file n p ['\\'] ⟨.unclosedString, .ofByte file n⟩

end StringLiteral

open StringLiteral

/-- The token of a literal whose opening quote stands at byte `n`; its span has both quotes. -/
def Token.ofLiteral (file : String) (n : Nat) (p : List Char) : Token :=
  ⟨.string, String.ofList p, .ofByte file n, .ofByte file (n + 1 + Text.byteLength p + 1)⟩

theorem Lexeme.take_quote (cs : List Char) : take '"' cs = ofMatch .quote ['"'] cs := rfl

/-- A literal is taken exactly where items are closed by a quote. -/
theorem Lexeme.take_quote_eq_ok_iff {cs rest : List Char} {l : Lexeme} :
    take '"' cs = .ok (l, rest) ↔ ∃ p, IsItems p ∧ cs = p ++ '"' :: rest ∧
      l = ⟨['"'] ++ p ++ ['"'], some (.string, p)⟩ := by
  have hscan {p : List Char} :
      scan cs = .closed p rest ↔ IsItems p ∧ cs = p ++ '"' :: rest := by
    rw [scan_eq_iff]
    constructor
    · rintro ⟨q, tail, rfl, hq, ht⟩
      cases ht
      exact ⟨hq, rfl⟩
    · rintro ⟨hp, rfl⟩
      exact ⟨p, _, rfl, hp, .quote rest⟩
  rw [take_quote, ofMatch_quote_iff]
  refine exists_congr fun p => ?_
  rw [← and_assoc, ← and_assoc, ← hscan, scan_eq_closed_iff]

theorem Lexeme.tokenAt?_literal (file : String) (n : Nat) (p : List Char) :
    tokenAt? file n ⟨['"'] ++ p ++ ['"'], some (.string, p)⟩ = some (.ofLiteral file n p) := by
  have hsize : ('"' : Char).utf8Size = 1 := rfl
  simp [tokenAt?, Token.ofLiteral, Span.ofBytes, hsize, Nat.add_assoc]

/-- Behind items there is the closing quote, or the literal is refused for what is there. -/
theorem Lexeme.take_quote_eq_error {p tail : List Char} (h : Longest p (p ++ tail))
    (file : String) (n : Nat) :
    (∃ rest, tail = '"' :: rest) ∨ ∃ cause k, take '"' (p ++ tail) = .error (cause, k) ∧
      Refused file n p tail ⟨cause, .ofByte file (n + k)⟩ := by
  obtain ⟨q, tail', he, hq, ht⟩ := exists_ends (p ++ tail)
  have hlongest := hq.longest ht.stuck
  rw [← he] at hlongest
  obtain rfl := hlongest.eq h
  obtain rfl := List.append_cancel_left he
  have hone : Text.byteLength ['"'] = 1 := rfl
  simp only [take_quote, ofMatch, hone]
  generalize scan (q ++ tail) = s at ht
  cases ht with
  | quote rest => exact .inl ⟨rest, rfl⟩
  | nil => exact .inr ⟨_, _, rfl, .nil⟩
  | cutEscape => exact .inr ⟨_, _, rfl, .cutEscape⟩
  | lineBreak rest => exact .inr ⟨_, _, rfl, Nat.add_assoc n 1 _ ▸ .lineBreak rest⟩
  | escapedLineBreak rest => exact .inr ⟨_, _, rfl, Nat.add_assoc n 1 _ ▸ .escapedLineBreak rest⟩
  | badEscape hn hc rest => exact .inr ⟨_, _, rfl, Nat.add_assoc n 1 _ ▸ .badEscape hn hc rest⟩

/-- The scanner accepts exactly the string literals and reports the first violation: at a quote a
string token is taken if and only if items and a closing quote follow, with the items as its value
and both quotes in its span; otherwise the scan is refused for what follows the longest sequence of
items. -/
theorem Token.scanFrom_string_literal (file : String) (n : Nat) (cs : List Char) :
    (∀ t rest, (∃ l, Lexeme.take '"' cs = .ok (l, rest) ∧ l.tokenAt? file n = some t) ↔
      ∃ p, IsItems p ∧ cs = p ++ '"' :: rest ∧ t = .ofLiteral file n p) ∧
    (∀ p rest, IsItems p → cs = p ++ '"' :: rest → scanFrom file n ('"' :: cs) =
      (scanFrom file (n + 1 + Text.byteLength p + 1) rest).map (Token.ofLiteral file n p :: ·)) ∧
    (∃ p, Longest p cs) ∧
    ∀ p tail, Longest p cs → cs = p ++ tail → (∃ rest, tail = '"' :: rest) ∨
      ∃ d, Refused file n p tail d ∧ scanFrom file n ('"' :: cs) = .error d := by
  refine ⟨fun t rest => ?_, ?_, ?_, ?_⟩
  · constructor
    · rintro ⟨l, hl, ht⟩
      obtain ⟨p, hp, he, rfl⟩ := Lexeme.take_quote_eq_ok_iff.mp hl
      rw [Lexeme.tokenAt?_literal] at ht
      exact ⟨p, hp, he, (Option.some.inj ht).symm⟩
    · rintro ⟨p, hp, he, rfl⟩
      exact ⟨_, Lexeme.take_quote_eq_ok_iff.mpr ⟨p, hp, he, rfl⟩, Lexeme.tokenAt?_literal file n p⟩
  · intro p rest hp he
    have hsize : ('"' : Char).utf8Size = 1 := rfl
    have htake := Lexeme.take_quote_eq_ok_iff.mpr ⟨p, hp, he, rfl⟩
    rw [scanFrom_of_takes (Lexeme.take_eq_ok_iff.mp htake), Lexeme.tokenAt?_literal]
    simp [hsize, Nat.add_assoc]
  · obtain ⟨p, tail, rfl, hp, ht⟩ := exists_ends cs
    exact ⟨p, hp.longest ht.stuck⟩
  · rintro p tail hp rfl
    refine (Lexeme.take_quote_eq_error hp file n).imp_right ?_
    rintro ⟨cause, k, htake, hr⟩
    exact ⟨_, hr, scanFrom_of_refused htake⟩

/-- Two backslashes leave the quote behind them to close the literal, three do not; an escape that
is none is reported behind the two bytes of the letter before it. -/
theorem Token.scanFrom_string_literal_backslashes :
    (∃ l, Lexeme.take '"' ['é', '\\', '\\', '"', '"'] = .ok (l, ['"']) ∧
      l.tokenAt? "a.ajs" 4 = some (.ofLiteral "a.ajs" 4 ['é', '\\', '\\'])) ∧
    scanFrom "a.ajs" 4 ['"', 'é', '\\', '\\', '\\', '"'] =
      .error ⟨.unclosedString, ⟨4, "a.ajs"⟩⟩ ∧
    scanFrom "a.ajs" 4 ['"', 'é', '\\', 'é', '"'] =
      .error ⟨.badEscape "\\é", ⟨7, "a.ajs"⟩⟩ := by
  have hletter : IsItem ['é'] := .plain (by decide) (by decide) (by decide)
  have hbackslash : IsItem ['\\', '\\'] := .escape (by decide)
  have hquote : IsItem ['\\', '"'] := .escape (by decide)
  have hone : IsItems ['é', '\\', '\\'] := .cons hletter (.cons hbackslash .nil)
  have htwo : IsItems ['é', '\\', '\\', '\\', '"'] :=
    .cons hletter (.cons hbackslash (.cons hquote .nil))
  have hthree : IsItems ['é'] := .cons hletter .nil
  refine ⟨?_, ?_, ?_⟩
  · exact ((scanFrom_string_literal "a.ajs" 4 _).1 _ _).mpr ⟨_, hone, rfl, rfl⟩
  · obtain ⟨rest, hr⟩ | ⟨d, hd, hs⟩ := (scanFrom_string_literal "a.ajs" 4 _).2.2.2 _ []
      (htwo.longest .nil) rfl
    · cases hr
    · cases hd
      exact hs
  · obtain ⟨rest, hr⟩ | ⟨d, hd, hs⟩ := (scanFrom_string_literal "a.ajs" 4 _).2.2.2 _
      ['\\', 'é', '"'] (hthree.longest (.badEscape (by decide) _)) rfl
    · cases hr
    · cases hd
      exact hs

end RootedC
