import RootedC.Proofs.Token.Gaps

/-!
Scanning undoes spelling. A token in writing is one lexeme wherever the text ends or a blank
follows, so tokens that are written one after the other, with blanks between them, are found again.
-/
namespace RootedC

namespace Pattern

theorem isBlank_of_mem_table {k : Kind} {v : List Char} (h : fixed k v ∈ table) {c : Char}
    (hc : c ∈ v) : Text.isBlank c = false := by
  have hall : ∀ p ∈ table, (match p with
      | fixed _ v => v.all fun c => !Text.isBlank c
      | _ => true) = true := by decide
  simpa using List.all_eq_true.mp (hall _ h) c hc

theorem isWordStart_of_isDigit {c : Char} (h : c.isDigit = true) : isWordStart c = false := by
  have hn : c ≠ '_' := by
    rintro rfl
    cases h
  simp [Char.isDigit, UInt32.le_iff_toNat_le] at h
  simp [isWordStart, Char.isAlpha, Char.isUpper, Char.isLower, UInt32.le_iff_toNat_le, hn]
  omega

theorem all_head?_mono {q q' : Char → Bool} (hq : ∀ c, q c = true → q' c = true)
    {cs : List Char} (h : cs.head?.all q = true) : cs.head?.all q' = true := by
  cases cs with
  | nil => rfl
  | cons c cs => exact hq c h

/-- A blank behind a text brings no pattern to match that does not match the text. -/
theorem split?_append_blank {p : Pattern} (hp : p ∈ table) {v rest : List Char} (hv : v ≠ [])
    (hr : rest.head?.all Text.isBlank = true) (h : p.split? v = none) :
    p.split? (v ++ rest) = none := by
  rw [Option.eq_none_iff_forall_not_mem]
  rintro ⟨lexeme, more⟩ hs
  obtain ⟨he, hm⟩ := split?_eq_some_iff.mp hs
  obtain ⟨c, v, rfl⟩ := List.exists_cons_of_ne_nil hv
  cases p with
  | word | digits | blanks =>
    obtain ⟨d, l, rfl, hd⟩ := hm.eq_cons
    obtain ⟨rfl, -⟩ := List.cons.inj he
    simp [split?, hd] at h
  | quote =>
    cases hm
    obtain ⟨rfl, -⟩ := List.cons.inj he
    cases h
  | comment =>
    obtain ⟨body, rfl, -⟩ := hm
    simp only [List.cons_append, List.cons.injEq] at he
    obtain ⟨rfl, he⟩ := he
    cases v with
    | nil =>
      rw [show rest = _ from he] at hr
      cases hr
    | cons d v =>
      obtain ⟨rfl, -⟩ := List.cons.inj he
      cases h
  | fixed k s =>
    cases hm
    -- The spelling ends inside the text, or its next character is the blank.
    rcases List.append_eq_append_iff.mp he with ⟨a, rfl, rfl⟩ | ⟨a, ha, -⟩
    · cases a with
      | nil => simp [split?, strip_eq_some_iff.mpr (List.append_nil _).symm] at h
      | cons b a =>
        have hb : Text.isBlank b = true := hr
        rw [isBlank_of_mem_table hp (by simp)] at hb
        cases hb
    · rw [ha, split?, strip_eq_some_iff.mpr rfl] at h
      cases h

theorem first?_append_blank {p : Pattern} {v rest : List Char}
    (hr : rest.head?.all Text.isBlank = true) (h : first? v = some (p, v, []))
    (hm : p.Matches v rest) :
    first? (v ++ rest) = some (p, v, rest) := by
  have hv : v ≠ [] := by
    rintro rfl
    cases h
  exact first?_of_rest h hm fun _ hq hnone => split?_append_blank hq hv hr hnone

end Pattern

namespace Lexeme

/-- A token that is a text of its own is a lexeme in front of a blank, too. -/
theorem Takes.append_blank {text rest : List Char} {w : Kind × List Char}
    (h : Takes text ⟨text, some w⟩ []) (hr : rest.head?.all Text.isBlank = true) :
    Takes (text ++ rest) ⟨text, some w⟩ rest := by
  obtain ⟨p, lexeme, after, hf, ho⟩ := h
  have hm := (Pattern.split?_eq_some_iff.mp (Pattern.mem_table_of_first? hf).2).2
  cases p with
  | word =>
    cases ho
    have hw : rest.head?.all (fun c => !Pattern.isWordPart c) = true :=
      Pattern.all_head?_mono (fun c hc => by simp [Pattern.isWordPart_of_isBlank hc]) hr
    exact ⟨_, _, _, Pattern.first?_append_blank hr hf ⟨hm.1, hm.2.1, hw⟩, rfl⟩
  | digits =>
    cases ho
    have hw : rest.head?.all (fun c => !c.isDigit) = true :=
      Pattern.all_head?_mono (fun c hc => by simp [Pattern.isDigit_of_isBlank hc]) hr
    exact ⟨_, _, _, Pattern.first?_append_blank hr hf ⟨hm.1, hm.2.1, hw⟩, rfl⟩
  | fixed =>
    cases ho
    exact ⟨_, _, _, Pattern.first?_append_blank hr hf hm, rfl⟩
  | blanks | comment => cases ho
  | quote =>
    obtain ⟨payload, rfl, hp, hl⟩ := ofMatch_quote_iff.mp ho
    cases hl
    cases hm
    exact ⟨.quote, ['"'], payload ++ '"' :: rest, by simp; rfl,
      ofMatch_quote_iff.mpr ⟨payload, rfl, hp, rfl⟩⟩

theorem takes_word {v : List Char} (hs : v.head?.any Pattern.isWordStart = true)
    (hp : v.all Pattern.isWordPart = true) :
    Takes v ⟨v, some (Kind.ofWord (String.ofList v), v)⟩ [] := by
  have hw : Pattern.word.split? v = some (v, []) :=
    Pattern.split?_eq_some_iff.mpr ⟨(List.append_nil v).symm, hs, hp, rfl⟩
  exact ⟨.word, v, [], by rw [Pattern.first?, Pattern.table, List.findSome?_cons, hw]; rfl, rfl⟩

theorem takes_digits {v : List Char} (hv : v ≠ []) (hd : v.all Char.isDigit = true) :
    Takes v ⟨v, some (.number, v)⟩ [] := by
  obtain ⟨c, v, rfl⟩ := List.exists_cons_of_ne_nil hv
  have hc : c.isDigit = true := (Bool.and_eq_true_iff.mp hd).1
  have hw : Pattern.word.split? (c :: v) = none := by
    simp [Pattern.split?, Pattern.isWordStart_of_isDigit hc]
  have hd : Pattern.digits.split? (c :: v) = some (c :: v, []) :=
    Pattern.split?_eq_some_iff.mpr ⟨(List.append_nil _).symm, hc, hd, rfl⟩
  exact ⟨.digits, c :: v, [], by
    rw [Pattern.first?, Pattern.table, List.findSome?_cons, hw, List.findSome?_cons, hd]; rfl, rfl⟩

/-- The reserved words are words, and each has its own kind. -/
theorem ofWord_of_mem_reserved : ∀ w ∈ Kind.reserved, Kind.ofWord w.1 = w.2 ∧
    w.1.toList.head?.any Pattern.isWordStart = true ∧ w.1.toList.all Pattern.isWordPart = true := by
  decide

theorem first?_of_mem_table {k : Kind} {v : List Char} (h : Pattern.fixed k v ∈ Pattern.table) :
    Pattern.first? v = some (.fixed k v, v, []) := by
  have hall : ∀ p ∈ Pattern.table, (match p with
      | .fixed k v => decide (Pattern.first? v = some (.fixed k v, v, []))
      | _ => true) = true := by decide
  simpa using hall _ h

/-- A token in writing is one lexeme. -/
theorem takes_written {k : Kind} {v : List Char} (h : k.spells v = true) :
    Takes (k.written v) ⟨k.written v, some (k, v)⟩ [] := by
  unfold Kind.spells at h
  split at h
  · cases h
  · simp only [Bool.and_eq_true, Bool.not_eq_true', List.isEmpty_eq_false_iff] at h
    exact takes_digits h.1 h.2
  · exact ⟨.quote, ['"'], v ++ ['"'], rfl, ofMatch_quote_iff.mpr ⟨v, rfl, h, rfl⟩⟩
  · simp only [Bool.and_eq_true, Option.isNone_iff_eq_none] at h
    have hw := takes_word h.1.1 h.1.2
    rwa [Kind.ofWord, h.2] at hw
  next hs _ =>
    have hk : k.written v = v := if_neg hs
    rw [hk]
    rcases Bool.or_eq_true_iff.mp h with h | h
    · obtain ⟨ho, hs, hp⟩ := ofWord_of_mem_reserved _ (List.contains_iff_mem.mp h)
      rw [String.toList_ofList] at hs hp
      have := takes_word hs hp
      rwa [ho] at this
    · exact ⟨_, _, _, first?_of_mem_table (List.contains_iff_mem.mp h), rfl⟩

end Lexeme

/-- A blank, and then blanks and closed comments. -/
def IsSeparator (sep : List Char) : Prop := IsLayout false sep ∧ sep.head?.any Text.isBlank = true

namespace Token

/-- The texts of tokens, each with what follows it. -/
def spelling (parts : List ((Kind × String) × List Char)) : List Char :=
  parts.flatMap fun p => p.1.1.written p.1.2.toList ++ p.2

theorem scanFrom_spelling {file : String} {parts : List ((Kind × String) × List Char)}
    (hk : ∀ p ∈ parts, p.1.1.spells p.1.2.toList = true)
    (hs : ∀ p ∈ parts, p.2 = [] ∨ IsSeparator p.2) (hl : ∀ p ∈ parts.dropLast, p.2 ≠ [])
    (n : Nat) :
    (scanFrom file n (spelling parts)).map (List.map fun t => (t.kind, t.value)) =
      .ok (parts.map (·.1) ++ [(Kind.endOfInput, "EOF")]) := by
  induction parts generalizing n with
  | nil =>
    rw [spelling, List.flatMap_nil, scanFrom]
    rfl
  | cons p parts ih =>
    obtain ⟨⟨k, v⟩, sep⟩ := p
    have hsep : IsLayout false sep ∧ (sep ++ spelling parts).head?.all Text.isBlank = true := by
      rcases hs _ List.mem_cons_self with rfl | ⟨hg, hb⟩
      · cases parts with
        | nil => exact ⟨.nil, rfl⟩
        | cons q parts => exact absurd rfl (hl _ List.mem_cons_self)
      · cases sep with
        | nil => cases hb
        | cons c sep => exact ⟨hg, hb⟩
    have ht := (Lexeme.takes_written (hk _ List.mem_cons_self)).append_blank hsep.2
    have hrest := ih (fun p hp => hk p (.tail _ hp)) (fun p hp => hs p (.tail _ hp))
      (fun p hp => hl p (by cases parts <;> simp_all))
      (n + Text.byteLength (k.written v.toList) + Text.byteLength sep)
    rw [spelling, List.flatMap_cons, List.append_assoc, ← spelling, scanFrom_of_takes_token ht,
      scanFrom_layout hsep.1]
    cases hr : scanFrom file (n + Text.byteLength (k.written v.toList) + Text.byteLength sep)
        (spelling parts) with
    | error d =>
      rw [hr] at hrest
      cases hrest
    | ok ts =>
      rw [hr] at hrest
      have hts := Except.ok.inj hrest
      simp [Except.map, hts]

/-- Scanning undoes spelling: tokens that are written out with separators between them, and perhaps
around them, are found again. -/
theorem scan_spelling (lead : List Char) (parts : List ((Kind × String) × List Char))
    (hlead : lead = [] ∨ IsSeparator lead)
    (hk : ∀ p ∈ parts, p.1.1.spells p.1.2.toList = true)
    (hs : ∀ p ∈ parts, p.2 = [] ∨ IsSeparator p.2) (hl : ∀ p ∈ parts.dropLast, p.2 ≠ [])
    (name? : Option String) :
    (scan (String.ofList (lead ++ spelling parts)) name?).map
        (List.map fun t => (t.kind, t.value)) =
      .ok (parts.map (·.1) ++ [(Kind.endOfInput, "EOF")]) := by
  have hlead : IsLayout false lead := by
    rcases hlead with rfl | h
    · exact .nil
    · exact h.1
  rw [scan, String.toList_ofList, scanFrom_layout hlead]
  exact scanFrom_spelling hk hs hl _

theorem scan_spelling_let :
    (scan "\nlet lets\u3000//=\n=\t\"a\\\"\"" none).map (List.map fun t => (t.kind, t.value)) =
      .ok [(.wordLet, "let"), (.identifier, "lets"), (.assign, "="), (.string, "a\\\""),
        (.endOfInput, "EOF")] := by
  have hblank : ∀ c, Text.isBlank c = true → IsSeparator [c] := fun c hc => ⟨.blank hc .nil, hc⟩
  have hclosed : IsLayout false ('/' :: '/' :: (['='] ++ ['\n'])) := .comment (by decide) .nil
  have hcomment : IsSeparator ['\u3000', '/', '/', '=', '\n'] := ⟨.blank rfl hclosed, rfl⟩
  refine scan_spelling ['\n'] [((.wordLet, "let"), [' ']),
    ((.identifier, "lets"), ['\u3000', '/', '/', '=', '\n']), ((.assign, "="), ['\t']),
    ((.string, "a\\\""), [])] (.inr (hblank _ rfl)) (by decide) ?_ (by decide) none
  simp [hblank ' ' rfl, hblank '\t' rfl, hcomment]

end Token

end RootedC
