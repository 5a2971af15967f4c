import Mathlib
import RootedC.Proofs.Lowering.Strings
import RootedC.Proofs.Provenance
import RootedC.Proofs.Typing.Signatures

/-!
What a generated string literal means to a C compiler, by the translation phases 1 to 5 of C11. It
means what the source says exactly if no trigraph stands in it. The length beside it is that of what
the source says.
-/
namespace RootedC

namespace StringLiteral

/-- The character that an escape stands for. -/
def escaped : Char → Char
  | 'n' => '\n'
  | 't' => '\t'
  | 'r' => '\r'
  | c => c

/-- The bytes that the inside of a literal stands for. -/
def decoded : List Char → List UInt8
  | [] => []
  | ['\\'] => []
  | '\\' :: c :: rest => String.utf8EncodeChar (escaped c) ++ decoded rest
  | c :: rest => String.utf8EncodeChar c ++ decoded rest

theorem decoded_cons {c : Char} (hc : c ≠ '\\') (rest : List Char) :
    decoded (c :: rest) = String.utf8EncodeChar c ++ decoded rest := by
  rw [decoded]
  all_goals simp [hc]

end StringLiteral

namespace Text

theorem countDecoded_cons {b : UInt8} (hb : b ≠ 0x5c) (bs : List UInt8) :
    countDecoded (b :: bs) = countDecoded bs + 1 := by
  cases bs with
  | nil => rfl
  | cons c bs => rw [countDecoded, if_neg hb]

theorem countDecoded_append {bs : List UInt8} (h : 0x5c ∉ bs) (more : List UInt8) :
    countDecoded (bs ++ more) = bs.length + countDecoded more := by
  induction bs with
  | nil => simp
  | cons b bs ih =>
    rw [List.mem_cons, not_or] at h
    rw [List.cons_append, countDecoded_cons (Ne.symm h.1), ih h.2, List.length_cons]
    omega

/-- Only the backslash has the byte of a backslash. -/
theorem backslash_notMem_utf8EncodeChar {c : Char} (hc : c ≠ '\\') :
    0x5c ∉ String.utf8EncodeChar c := by
  have hval : c.val.toNat ≠ 92 := fun h => hc (Char.ext (UInt32.toNat_inj.mp h))
  have hbyte : ∀ n, (0x5c : UInt8) = UInt8.ofNat n → n % 256 = 92 := by
    intro n h
    have := congrArg UInt8.toNat h
    simpa using this.symm
  intro h
  rw [String.utf8EncodeChar.eq_1] at h
  split at h
  · have := hbyte _ (List.mem_singleton.mp h)
    omega
  · split at h
    · simp only [List.mem_cons, List.not_mem_nil, or_false] at h
      rcases h with h | h
      all_goals
        have := hbyte _ h
        omega
    · split at h
      · simp only [List.mem_cons, List.not_mem_nil, or_false] at h
        rcases h with h | h | h
        all_goals
          have := hbyte _ h
          omega
      · simp only [List.mem_cons, List.not_mem_nil, or_false] at h
        rcases h with h | h | h | h
        all_goals
          have := hbyte _ h
          omega

end Text

/-! Translation phases of C11, as far as string literals go. -/
namespace C11

/-- The character that a trigraph with this third character is replaced by. -/
def trigraph? : Char → Option Char
  | '=' => some '#'
  | '(' => some '['
  | '/' => some '\\'
  | ')' => some ']'
  | '\x27' => some '^'
  | '<' => some '\x7b'
  | '!' => some '|'
  | '>' => some '\x7d'
  | '-' => some '~'
  | _ => none

/-- Phase 1: trigraphs are replaced from left to right. -/
def trigraphs : List Char → List Char
  | [] => []
  | '?' :: '?' :: c :: rest =>
    match trigraph? c with
    | some d => d :: trigraphs rest
    | none => '?' :: trigraphs ('?' :: c :: rest)
  | c :: rest => c :: trigraphs rest

/-- Phase 2: a line that ends in a backslash goes on in the next line. -/
def splices : List Char → List Char
  | [] => []
  | '\\' :: '\n' :: rest => splices rest
  | c :: rest => c :: splices rest

/-- The character that a simple escape sequence stands for. -/
def escape? : Char → Option Char
  | '\x27' => some '\x27'
  | '"' => some '"'
  | '?' => some '?'
  | '\\' => some '\\'
  | 'a' => some '\x07'
  | 'b' => some '\x08'
  | 'f' => some '\x0c'
  | 'n' => some '\n'
  | 'r' => some '\r'
  | 't' => some '\t'
  | 'v' => some '\x0b'
  | _ => none

/-- Phases 3 and 5 behind an opening quote: the bytes of the literal, and the text behind its
closing quote. -/
def contents? : List Char → Option (List UInt8 × List Char)
  | [] => none
  | '"' :: rest => some ([], rest)
  | ['\\'] => none
  | '\\' :: c :: rest => do
    let d ← escape? c
    let (bytes, rest) ← contents? rest
    return (String.utf8EncodeChar d ++ bytes, rest)
  | c :: rest => do
    guard (c ≠ '\n')
    let (bytes, rest) ← contents? rest
    return (String.utf8EncodeChar c ++ bytes, rest)

/-- The string literal that a text starts with: its bytes, and the text behind it. -/
def literal? (text : List Char) : Option (List UInt8 × List Char) :=
  match splices (trigraphs text) with
  | '"' :: rest => contents? rest
  | _ => none

/-- Two question marks and a third character that makes a trigraph of them stand in the text. -/
def HasTrigraph (cs : List Char) : Prop :=
  ∃ c, (trigraph? c).isSome = true ∧ ['?', '?', c] <:+: cs

theorem trigraphs_cons {c : Char} (hc : c ≠ '?') (rest : List Char) :
    trigraphs (c :: rest) = c :: trigraphs rest := by
  rw [trigraphs]
  simp [hc]

/-- A trigraph stands in front, or else the first character stays. -/
theorem trigraphs_cons_cases (c : Char) (rest : List Char) :
    (∃ e d more, c = '?' ∧ rest = '?' :: e :: more ∧ trigraph? e = some d ∧
      trigraphs (c :: rest) = d :: trigraphs more) ∨
    trigraphs (c :: rest) = c :: trigraphs rest := by
  by_cases hc : c = '?'
  · subst hc
    match rest with
    | [] => exact .inr rfl
    | [e] =>
      right
      by_cases he : e = '?' <;> simp [trigraphs, he]
    | q :: e :: more =>
      by_cases hq : q = '?'
      · subst hq
        cases hd : trigraph? e with
        | some d => exact .inl ⟨e, d, more, rfl, rfl, hd, by simp [trigraphs, hd]⟩
        | none =>
          right
          rw [trigraphs, hd]
      · right
        rw [trigraphs]
        simp [hq]
  · exact .inr (trigraphs_cons hc rest)

/-- No trigraph goes over a quote. -/
theorem trigraphs_quote (a b : List Char) :
    trigraphs (a ++ '"' :: b) = trigraphs a ++ '"' :: trigraphs b := by
  fun_induction trigraphs a with
  | case1 => exact trigraphs_cons (by decide) b
  | case2 c rest d hd ih => simp [trigraphs, hd, ih]
  | case3 c rest hd ih => simpa [trigraphs, hd] using ih
  | case4 c rest h ih =>
    rcases trigraphs_cons_cases c (rest ++ '"' :: b) with ⟨e, d, more, rfl, hrest, hd, -⟩ | heq
    · match rest with
      | [] => cases hrest
      | [x] =>
        cases hrest
        cases hd
      | x :: y :: rest =>
        cases hrest
        exact (h _ rest rfl rfl).elim
    · rw [List.cons_append, heq, ih, List.cons_append]

theorem trigraph?_ne {c d : Char} (h : trigraph? c = some d) :
    c ≠ '"' ∧ c ≠ '\\' ∧ c ≠ '\n' ∧ c.utf8Size = 1 ∧ d ≠ '?' ∧ d ≠ '\n' ∧ d.utf8Size = 1 := by
  unfold trigraph? at h
  split at h
  all_goals
    cases h
    try decide

theorem hasTrigraph_cons {c : Char} {rest : List Char} : HasTrigraph (c :: rest) ↔
    (∃ e more, c = '?' ∧ rest = '?' :: e :: more ∧ (trigraph? e).isSome = true) ∨
      HasTrigraph rest := by
  simp only [HasTrigraph, List.infix_cons_iff]
  constructor
  · rintro ⟨e, he, ⟨more, hmore⟩ | hin⟩
    · cases hmore
      exact .inl ⟨e, more, rfl, rfl, he⟩
    · exact .inr ⟨e, he, hin⟩
  · rintro (⟨e, more, rfl, rfl, he⟩ | ⟨e, he, hin⟩)
    · exact ⟨e, he, .inl ⟨more, rfl⟩⟩
    · exact ⟨e, he, .inr hin⟩

/-- Text without trigraphs stays as it is, and only such text. -/
theorem trigraphs_eq_self_iff {cs : List Char} : trigraphs cs = cs ↔ ¬HasTrigraph cs := by
  fun_induction trigraphs cs with
  | case1 => simp [HasTrigraph]
  | case2 c rest d hd ih =>
    have hfront : HasTrigraph ('?' :: '?' :: c :: rest) :=
      hasTrigraph_cons.mpr (.inl ⟨c, rest, rfl, rfl, by simp [hd]⟩)
    simp [hfront, (trigraph?_ne hd).2.2.2.2.1]
  | case3 c rest hd ih =>
    rw [hasTrigraph_cons, List.cons_inj_right, ih]
    simp [hd]
  | case4 c rest h ih =>
    rw [hasTrigraph_cons, List.cons_inj_right, ih, not_or]
    refine (and_iff_right ?_).symm
    rintro ⟨e, more, hc, hrest, -⟩
    exact h e more hc hrest

theorem splices_quote {a : List Char} (h : '\n' ∉ a) (b : List Char) :
    splices (a ++ '"' :: b) = a ++ '"' :: splices b := by
  induction a with
  | nil => simp [splices]
  | cons c a ih =>
    rw [List.mem_cons, not_or] at h
    rw [List.cons_append, splices, ih h.2, List.cons_append]
    -- a backslash before a line feed would be a splice
    intro rest hc ha
    cases a with
    | nil => cases ha
    | cons d a =>
      cases ha
      exact h.2 List.mem_cons_self

theorem escape?_utf8Size {c d : Char} (h : escape? c = some d) : d.utf8Size = 1 := by
  unfold escape? at h
  split at h
  all_goals
    cases h
    try rfl

/-- The inside of a literal, with the bytes that it stands for. -/
inductive Body : List Char → List UInt8 → Prop
  | nil : Body [] []
  | plain {c : Char} {cs : List Char} {bytes : List UInt8} : c ≠ '"' → c ≠ '\\' → c ≠ '\n' →
      Body cs bytes → Body (c :: cs) (String.utf8EncodeChar c ++ bytes)
  | escape {c d : Char} {cs : List Char} {bytes : List UInt8} : escape? c = some d →
      Body cs bytes → Body ('\\' :: c :: cs) (String.utf8EncodeChar d ++ bytes)

theorem Body.contents? {body : List Char} {bytes : List UInt8} (h : Body body bytes)
    (rest : List Char) : contents? (body ++ '"' :: rest) = some (bytes, rest) := by
  induction h with
  | nil => rfl
  | plain hq hb hn h ih =>
    rw [List.cons_append, C11.contents?, ih]
    · simp [hn]
    all_goals simp [hq, hb]
  | escape hc h ih =>
    rw [List.cons_append, List.cons_append, C11.contents?, hc, ih]
    rfl

theorem exists_body {cs rest : List Char} {bytes : List UInt8}
    (h : contents? cs = some (bytes, rest)) :
    ∃ body, cs = body ++ '"' :: rest ∧ Body body bytes := by
  fun_induction C11.contents? cs generalizing bytes with
  | case1 | case3 => cases h
  | case2 more =>
    cases h
    exact ⟨[], rfl, .nil⟩
  | case4 c more ih =>
    cases hc : escape? c with
    | none => simp [hc] at h
    | some d =>
      cases hmore : C11.contents? more with
      | none => simp [hc, hmore] at h
      | some found =>
        rw [hc, hmore] at h
        cases h
        obtain ⟨body, rfl, hbody⟩ := ih hmore
        exact ⟨'\\' :: c :: body, rfl, .escape hc hbody⟩
  | case5 c more hq hb hb' ih =>
    by_cases hn : c = '\n'
    · simp [hn] at h
    · cases hmore : C11.contents? more with
      | none => simp [hmore] at h
      | some found =>
        simp only [ne_eq, hn, not_false_eq_true, guard_true, hmore] at h
        cases h
        obtain ⟨body, rfl, hbody⟩ := ih hmore
        exact ⟨c :: body, rfl, .plain hq (StringLiteral.ne_backslash hb hb') hn hbody⟩

/-- A literal ends at its first quote that is not escaped. -/
theorem contents?_eq_some_iff {cs rest : List Char} {bytes : List UInt8} :
    contents? cs = some (bytes, rest) ↔ ∃ body, cs = body ++ '"' :: rest ∧ Body body bytes := by
  refine ⟨exists_body, ?_⟩
  rintro ⟨body, rfl, hbody⟩
  exact hbody.contents? rest

end C11

namespace StringLiteral

open C11

theorem isEscape_cases {c : Char} (h : isEscape c = true) :
    c ≠ '?' ∧ c ≠ '\n' ∧ c.utf8Size = 1 ∧ (escaped c).utf8Size = 1 ∧
      escape? c = some (escaped c) := by
  simp only [isEscape, Bool.or_eq_true, beq_iff_eq] at h
  rcases h with (((rfl | rfl) | rfl) | rfl) | rfl <;> decide

/-- A payload, what the replacement of trigraphs makes of it, and the bytes that it stands for. -/
inductive Reading : List Char → List Char → List UInt8 → Prop
  | nil : Reading [] [] []
  | escape {c : Char} {cs ds : List Char} {bytes : List UInt8} : isEscape c = true →
      Reading cs ds bytes →
      Reading ('\\' :: c :: cs) ('\\' :: c :: ds) (String.utf8EncodeChar (escaped c) ++ bytes)
  | trigraph {c d : Char} {cs ds : List Char} {bytes : List UInt8} : trigraph? c = some d →
      Reading cs ds bytes → Reading ('?' :: '?' :: c :: cs) (d :: ds)
        (String.utf8EncodeChar '?' ++ (String.utf8EncodeChar '?' ++
          (String.utf8EncodeChar c ++ bytes)))
  | plain {c : Char} {cs ds : List Char} {bytes : List UInt8} : c ≠ '"' → c ≠ '\\' → c ≠ '\n' →
      Reading cs ds bytes → Reading (c :: cs) (c :: ds) (String.utf8EncodeChar c ++ bytes)

theorem isPayload_plain {c : Char} {rest : List Char} (hc : c ≠ '\\')
    (h : isPayload (c :: rest) = true) : c ≠ '"' ∧ c ≠ '\n' ∧ isPayload rest = true := by
  rw [isPayload_cons hc] at h
  simpa [and_assoc] using h

theorem exists_reading {p : List Char} (h : isPayload p = true) :
    Reading p (trigraphs p) (decoded p) := by
  -- a trigraph takes three characters off at once
  induction hn : p.length using Nat.strong_induction_on generalizing p with
  | _ n ih =>
    subst hn
    cases p with
    | nil => exact .nil
    | cons c rest =>
      by_cases hc : c = '\\'
      · subst hc
        cases rest with
        | nil => cases h
        | cons e rest =>
          rw [isPayload, Bool.and_eq_true] at h
          rw [trigraphs_cons (by decide), trigraphs_cons (isEscape_cases h.1).1, decoded]
          exact .escape h.1 (ih rest.length (by simp) h.2 rfl)
      · obtain ⟨hq, hn, hrest⟩ := isPayload_plain hc h
        rcases trigraphs_cons_cases c rest with ⟨e, d, more, rfl, rfl, hd, heq⟩ | heq
        · obtain ⟨-, he, -⟩ := trigraph?_ne hd
          have hmore := (isPayload_plain he (isPayload_plain (by decide) hrest).2.2).2.2
          rw [heq, decoded_cons hc, decoded_cons (by decide), decoded_cons he]
          exact .trigraph hd (ih more.length (by simp; omega) hmore rfl)
        · rw [heq, decoded_cons hc]
          exact .plain hq hc hn (ih rest.length (by simp) hrest rfl)

namespace Reading

variable {cs ds : List Char} {bytes : List UInt8}

theorem newline_notMem (h : Reading cs ds bytes) : '\n' ∉ ds := by
  induction h with
  | nil => simp
  | escape hc _ ih => simp [ih, (isEscape_cases hc).2.1.symm]
  | trigraph hd _ ih => simp [ih, (trigraph?_ne hd).2.2.2.2.2.1.symm]
  | plain _ _ hn _ ih => simp [ih, hn.symm]

theorem decodedLength (h : Reading cs ds bytes) :
    Text.countDecoded (Text.utf8 cs) = bytes.length := by
  have hplain : ∀ (c : Char) (cs : List Char) (bytes : List UInt8), c ≠ '\\' →
      Text.countDecoded (Text.utf8 cs) = bytes.length →
      Text.countDecoded (Text.utf8 (c :: cs)) = (String.utf8EncodeChar c ++ bytes).length := by
    intro c cs bytes hc ih
    rw [Text.utf8, List.flatMap_cons, ← Text.utf8,
      Text.countDecoded_append (Text.backslash_notMem_utf8EncodeChar hc), ih, List.length_append]
  induction h with
  | nil => rfl
  | @escape c cs ds bytes hc _ ih =>
    obtain ⟨b, hb⟩ : ∃ b, String.utf8EncodeChar c = [b] := by
      rw [← List.length_eq_one_iff, String.length_utf8EncodeChar, (isEscape_cases hc).2.2.1]
    have hbytes : Text.utf8 ('\\' :: c :: cs) = 0x5c :: b :: Text.utf8 cs := by
      simp [Text.utf8, hb, String.utf8EncodeChar.eq_1]
    rw [hbytes, Text.countDecoded, if_pos rfl, ih, List.length_append,
      String.length_utf8EncodeChar, (isEscape_cases hc).2.2.2.1, Nat.add_comm]
  | trigraph hd _ ih =>
    exact hplain _ _ _ (by decide)
      (hplain _ _ _ (by decide) (hplain _ _ _ (trigraph?_ne hd).2.1 ih))
  | plain _ hb _ _ ih => exact hplain _ _ _ hb ih

/-- Nothing that a compiler finds in the replaced text, or behind a backslash that takes its first
character, is longer than what the source says; where a trigraph was replaced it is shorter. -/
theorem length_body (h : Reading cs ds bytes) :
    (∀ found, Body ds found → found.length ≤ bytes.length) ∧
    (∀ found, Body ds.tail found → found.length ≤ bytes.length) ∧
    (ds ≠ cs → ∀ found, Body ds found → found.length < bytes.length) := by
  induction h with
  | nil =>
    refine ⟨?_, ?_, fun h => absurd rfl h⟩
    all_goals
      intro found hf
      cases hf
      exact Nat.le_refl _
  | @escape c cs ds bytes hc _ ih =>
    obtain ⟨hall, htail, hstrict⟩ := ih
    simp only [List.length_append, String.length_utf8EncodeChar, (isEscape_cases hc).2.2.2.1]
    refine ⟨fun found hf => ?_, fun found hf => ?_, fun hne found hf => ?_⟩
    · cases hf with
      | plain _ hb => exact absurd rfl hb
      | @escape _ _ _ found hd hf =>
        have := hall found hf
        simp only [List.length_append, String.length_utf8EncodeChar, escape?_utf8Size hd]
        omega
    · cases hf with
      | @plain _ _ found _ _ _ hf =>
        have := hall found hf
        simp only [List.length_append, String.length_utf8EncodeChar, (isEscape_cases hc).2.2.1]
        omega
      | @escape e _ ds found hd hf =>
        have := htail found hf
        simp only [List.length_append, String.length_utf8EncodeChar, escape?_utf8Size hd]
        omega
    · cases hf with
      | plain _ hb => exact absurd rfl hb
      | @escape _ _ _ found hd hf =>
        have := hstrict (fun h => hne (by rw [h])) found hf
        simp only [List.length_append, String.length_utf8EncodeChar, escape?_utf8Size hd]
        omega
  | @trigraph c d cs ds bytes hd _ ih =>
    obtain ⟨hall, htail, -⟩ := ih
    have hmark : '?'.utf8Size = 1 := rfl
    simp only [List.length_append, String.length_utf8EncodeChar, hmark, (trigraph?_ne hd).2.2.2.1]
    have hshort : ∀ found, Body (d :: ds) found → found.length ≤ bytes.length + 1 := by
      intro found hf
      cases hf with
      | @plain _ _ found _ _ _ hf =>
        have := hall found hf
        simp only [List.length_append, String.length_utf8EncodeChar, (trigraph?_ne hd).2.2.2.2.2.2]
        omega
      | @escape e _ ds found he hf =>
        -- the trigraph stood for a backslash, which takes the next character
        have := htail found hf
        simp only [List.length_append, String.length_utf8EncodeChar, escape?_utf8Size he]
        omega
    refine ⟨fun found hf => ?_, fun found hf => ?_, fun _ found hf => ?_⟩
    · have := hshort found hf
      omega
    · have := hall found hf
      omega
    · have := hshort found hf
      omega
  | @plain c cs ds bytes hq hb hn _ ih =>
    obtain ⟨hall, -, hstrict⟩ := ih
    simp only [List.length_append]
    refine ⟨fun found hf => ?_, fun found hf => ?_, fun hne found hf => ?_⟩
    · cases hf with
      | @plain _ _ found _ _ _ hf =>
        have := hall found hf
        rw [List.length_append]
        omega
      | escape => exact absurd rfl hb
    · have := hall found hf
      omega
    · cases hf with
      | @plain _ _ found _ _ _ hf =>
        have := hstrict (fun h => hne (by rw [h])) found hf
        rw [List.length_append]
        omega
      | escape => exact absurd rfl hb

theorem body (h : Reading cs ds bytes) (heq : ds = cs) : Body cs bytes := by
  induction h with
  | nil => exact .nil
  | escape hc _ ih =>
    cases heq
    exact .escape (isEscape_cases hc).2.2.2.2 (ih rfl)
  | trigraph hd _ ih => exact ((trigraph?_ne hd).2.2.2.2.1 (List.cons.inj heq).1).elim
  | plain hq hb hn _ ih => exact .plain hq hb hn (ih (List.cons.inj heq).2)

end Reading

theorem decodedLength_eq {raw : String} (h : isPayload raw.toList = true) :
    Text.decodedLength raw = (decoded raw.toList).length :=
  (exists_reading h).decodedLength

/-- Between quotes, a payload is one literal that means what it stands for exactly if no trigraph
stands in it. The quotes keep it apart from the text around it. -/
theorem literal?_iff {p : List Char} (h : isPayload p = true) (after : List Char) :
    literal? ('"' :: p ++ '"' :: after) = some (decoded p, splices (trigraphs after)) ↔
      ¬HasTrigraph p := by
  have hr := exists_reading h
  have hphases : splices (trigraphs ('"' :: p ++ '"' :: after)) =
      '"' :: (trigraphs p ++ '"' :: splices (trigraphs after)) := by
    have hn : '\n' ∉ '"' :: trigraphs p := by simp [hr.newline_notMem]
    rw [trigraphs_quote, trigraphs_cons (by decide), splices_quote hn, List.cons_append]
  simp only [literal?, hphases]
  rw [contents?_eq_some_iff, ← trigraphs_eq_self_iff]
  constructor
  · rintro ⟨body, heq, hbody⟩
    -- the closing quote is where it was written, so the literal has no other text in it
    obtain rfl := List.append_cancel_right heq
    by_contra hne
    exact Nat.lt_irrefl _ (hr.length_body.2.2 hne _ hbody)
  · intro heq
    exact ⟨p, by rw [heq], hr.body heq⟩

end StringLiteral

/-- The string tokens of a stream, and nothing said of places and words. -/
def Stock.ofTokens (ts : List Token) : Stock where
  place _ := True
  word _ := True
  text raw := ∃ t ∈ ts, t.kind = .string ∧ t.value = raw

/-- The strings of generated code are string tokens of the source, with the lengths of what they
stand for. -/
theorem Phases.strings {source file : String} {ts : List Token} {ast : Module} {tm : Typed.Module}
    {m : Code.Module} (h : Phases source file ts ast tm m) : ∀ s ∈ m.strings,
    (∃ t ∈ ts, t.kind = .string ∧ t.value = s.raw) ∧ s.length = Text.decodedLength s.raw := by
  intro s hs
  have htokens : ∀ t ∈ ts, t.From (.ofTokens ts) := fun t ht =>
    ⟨⟨trivial, trivial⟩, fun _ => trivial, fun hk => ⟨t, ht, hk, rfl⟩⟩
  have hast := (Module.ofTokens_from (S := .ofTokens ts) trivial htokens).1 ast h.parsed
  have htm := (Module.check_from hast).1 tm h.checked
  obtain ⟨G, -, hf, -⟩ := Lexical.signatures_of_check h.checked
  exact ⟨(Typed.Module.lower_from htm).1 m h.lowered s hs, hf.measured h.lowered s hs⟩

/-- The strings of a compiled source are written into the C text between quotes, behind their
lengths. To a compiler such a literal means what the source says exactly if no trigraph stands in
it, and the length counts the bytes of what the source says. -/
theorem string_literal_means_iff {source file : String} {ts : List Token}
    (hts : Token.scan source (some file) = .ok ts) :
    (∀ t ∈ ts, t.kind = .string →
      Text.decodedLength t.value = (StringLiteral.decoded t.value.toList).length ∧
      ∀ after, C11.literal? ('"' :: t.value.toList ++ '"' :: after) =
          some (StringLiteral.decoded t.value.toList, C11.splices (C11.trigraphs after)) ↔
        ¬C11.HasTrigraph t.value.toList) ∧
    ∀ ast tm m, Phases source file ts ast tm m → ∀ s ∈ m.strings,
      (∃ t ∈ ts, t.kind = .string ∧ t.value = s.raw) ∧
      s.length = (StringLiteral.decoded s.raw.toList).length ∧
      ∀ index, ∃ before,
        s.render index = before ++ s.length.repr ++ ", \"" ++ s.raw ++ "\" \x7d;" := by
  have hpayload : ∀ t ∈ ts, t.kind = .string → StringLiteral.isPayload t.value.toList = true :=
    fun t ht => ((Token.scan_from source file).1 ts hts t ht).text
  refine ⟨fun t ht hk => ?_, fun ast tm m h s hs => ?_⟩
  · exact ⟨StringLiteral.decodedLength_eq (hpayload t ht hk),
      StringLiteral.literal?_iff (hpayload t ht hk)⟩
  · obtain ⟨⟨t, ht, hk, hraw⟩, hlength⟩ := h.strings s hs
    refine ⟨⟨t, ht, hk, hraw⟩, ?_, fun index => ?_⟩
    · rw [hlength, ← hraw]
      exact StringLiteral.decodedLength_eq (hpayload t ht hk)
    · exact ⟨"static AjisaiStaticString strlit" ++ index.repr ++
        " = \x7b \x7b AJISAI_TAG_STRING, AJISAI_FLAG_STATIC \x7d, ", rfl⟩

/-- A string without trigraphs, with an escape and a question mark before its end. -/
theorem string_literal_means_iff_escaped : ∃ ts t,
    Token.scan "entry \x7b print_str(\"é\\n?\") \x7d" (some "a.ajs") = .ok ts ∧ t ∈ ts ∧
    t.kind = .string ∧ StringLiteral.decoded t.value.toList = [0xc3, 0xa9, 0x0a, 0x3f] ∧
    Text.decodedLength t.value = (StringLiteral.decoded t.value.toList).length ∧
    C11.literal? ('"' :: t.value.toList ++ '"' :: [' ', '\x7d', ';']) =
      some (StringLiteral.decoded t.value.toList, [' ', '\x7d', ';']) := by
  obtain ⟨ts, hts, ht⟩ : ∃ ts,
      Token.scan "entry \x7b print_str(\"é\\n?\") \x7d" (some "a.ajs") = .ok ts ∧
        ⟨.string, "é\\n?", ⟨⟨18, "a.ajs"⟩, ⟨25, "a.ajs"⟩⟩⟩ ∈ ts := ⟨_, by cbv, by decide⟩
  obtain ⟨hlength, hmeans⟩ := (string_literal_means_iff hts).1 _ ht rfl
  exact ⟨ts, _, hts, ht, rfl, by decide, hlength,
    (hmeans _).mpr (C11.trigraphs_eq_self_iff.mp (by decide))⟩

/-- `??!` is three bytes to the source and one bar to a C compiler; behind `??/` the closing quote
is escaped, and no literal is found. -/
theorem string_literal_trigraph_differs : ∃ ts t,
    Token.scan "entry \x7b print_str(\"??!\") \x7d" (some "a.ajs") = .ok ts ∧ t ∈ ts ∧
    t.kind = .string ∧ t.value = "??!" ∧
    StringLiteral.decoded t.value.toList = [0x3f, 0x3f, 0x21] ∧ Text.decodedLength t.value = 3 ∧
    C11.literal? ('"' :: t.value.toList ++ '"' :: [' ', '\x7d', ';']) =
      some ([0x7c], [' ', '\x7d', ';']) ∧
    StringLiteral.isPayload ['?', '?', '/'] = true ∧
    C11.literal? ('"' :: ['?', '?', '/'] ++ '"' :: [' ', '\x7d', ';']) = none := by
  refine ⟨_, ⟨.string, "??!", ⟨⟨18, "a.ajs"⟩, ⟨23, "a.ajs"⟩⟩⟩, by cbv, ?_⟩
  decide

end RootedC
