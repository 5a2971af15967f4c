import RootedC.Proofs.Token.Gaps

/-!
A scan loses nothing of its source: the spans of the tokens and the layout between them make up the
text, and what stands before a failure is made up in the same way.
-/
namespace RootedC

theorem IsLayout.append {last : Bool} {gap cs : List Char} (h : IsLayout false gap)
    (hcs : IsLayout last cs) : IsLayout last (gap ++ cs) := by
  induction h with
  | nil => exact hcs
  | blank hc _ ih => exact .blank hc ih
  | comment hb _ ih => simpa using IsLayout.comment hb ih
  | lastComment h => cases h

theorem Text.utf8ByteSize_ofList (cs : List Char) :
    (String.ofList cs).utf8ByteSize = byteLength cs := by
  induction cs with
  | nil => rfl
  | cons c cs ih =>
    have hc : String.ofList (c :: cs) = String.singleton c ++ String.ofList cs := by simp
    rw [byteLength_cons, ← ih, hc, String.utf8ByteSize_append, String.utf8ByteSize_singleton]

@[simp] theorem Text.byteLength_toList (s : String) : byteLength s.toList = s.utf8ByteSize := by
  rw [← utf8ByteSize_ofList, String.ofList_toList]

namespace StringLiteral

/-- Where a scan fails; an unclosed literal fails at its start. -/
def Scan.offset : Scan → Nat
  | .closed .. | .unclosed => 0
  | .lineBreak offset | .badEscape offset _ => offset

theorem Scan.offset_prepend_le (item : List Char) (s : Scan) :
    (s.prepend item).offset ≤ Text.byteLength item + s.offset := by
  cases s <;> simp [prepend, offset]

theorem offset_scan_le (cs : List Char) : (scan cs).offset ≤ Text.byteLength cs := by
  fun_induction scan cs with
  | case1 | case2 | case3 | case4 | case5 | case7 => simp [Scan.offset]
  | case6 c r _ _ ih | case8 c r _ _ _ _ ih =>
    refine (Scan.offset_prepend_le _ _).trans ?_
    simp only [Text.byteLength_cons, Text.byteLength_nil]
    omega

end StringLiteral

/-- Only an unknown character and a string literal are refused; the failure is placed inside the
refused text. -/
theorem Lexeme.take_eq_error {c : Char} {cs : List Char} {cause : Cause} {k : Nat}
    (h : take c cs = .error (cause, k)) :
    k ≤ Text.byteLength (c :: cs) ∧
      (c = '"' ∨ cause = .unrecognised (String.ofList [c]) ∧ k = 0) := by
  unfold take at h
  split at h
  next =>
    cases h
    exact ⟨Nat.zero_le _, .inr ⟨rfl, rfl⟩⟩
  next p lexeme rest hf =>
    obtain ⟨he, hm⟩ := Pattern.split?_eq_some_iff.mp (Pattern.mem_table_of_first? hf).2
    cases p with
    | quote =>
      cases hm
      obtain ⟨rfl, rfl⟩ := List.cons.inj he
      have hle := StringLiteral.offset_scan_le cs
      refine ⟨?_, .inl rfl⟩
      simp only [ofMatch] at h
      cases hs : StringLiteral.scan cs with
      | closed =>
        rw [hs] at h
        cases h
      | unclosed =>
        rw [hs] at h
        cases h
        exact Nat.zero_le _
      | lineBreak | badEscape =>
        rw [hs] at h hle
        cases h
        exact Nat.add_le_add_left hle _
    | word | digits | blanks | comment | fixed => cases h

namespace Token

/-- The text of a token; a string stands between its quotes. -/
def written (t : Token) : String := String.ofList (t.kind.written t.value.toList)

/-- The tokens of a text from byte `n` of a file on, each behind its gap. The gap behind the last
token ends the source where `last` says so. -/
inductive Cut (file : String) (last : Bool) : Nat → List Char → List Token → Prop where
  | nil {n : Nat} {gap : List Char} : IsLayout last gap → Cut file last n gap []
  | cons {n : Nat} {gap v rest : List Char} {k : Kind} {ts : List Token} : IsLayout false gap →
      k.spells v = true → Cut file last (n + Text.byteLength (gap ++ k.written v)) rest ts →
      Cut file last n (gap ++ k.written v ++ rest)
        (⟨k, String.ofList v, .ofBytes file (n + Text.byteLength gap)
          (Text.byteLength (k.written v))⟩ :: ts)

namespace Cut

variable {file : String} {last : Bool} {n : Nat} {cs : List Char} {ts : List Token}

theorem behind {gap : List Char} (hg : IsLayout false gap)
    (h : Cut file last (n + Text.byteLength gap) cs ts) : Cut file last n (gap ++ cs) ts := by
  cases h with
  | nil h => exact .nil (hg.append h)
  | @cons _ g v rest k ts hgap hk h =>
    have := Cut.cons (n := n) (hg.append hgap) hk (by simpa [Nat.add_assoc] using h)
    simpa [Nat.add_assoc] using this

theorem slices (h : Cut file last n cs ts) {t : Token} (ht : t ∈ ts) :
    ∃ before after, cs = before ++ t.kind.written t.value.toList ++ after ∧
      t.span = .ofBytes file (n + Text.byteLength before)
        (Text.byteLength (t.kind.written t.value.toList)) := by
  induction h with
  | nil => cases ht
  | @cons n gap v rest k ts hg hk h ih =>
    rcases List.mem_cons.mp ht with rfl | ht
    · exact ⟨gap, rest, by simp⟩
    · obtain ⟨before, after, rfl, hs⟩ := ih ht
      exact ⟨gap ++ k.written v ++ before, after, by simp, by rw [hs]; simp [Nat.add_assoc]⟩

theorem ordered (h : Cut file last n cs ts) (hn : n + Text.byteLength cs < 4294967296) :
    ts.Pairwise fun t u => t.span.stop.offset ≤ u.span.start.offset := by
  induction h with
  | nil => exact .nil
  | @cons n gap v rest k ts hg hk h ih =>
    simp only [Text.byteLength_append] at hn ⊢
    refine .cons (fun u hu => ?_) (ih (by simp only [Text.byteLength_append]; omega))
    obtain ⟨before, after, rfl, hs⟩ := h.slices hu
    simp only [Text.byteLength_append] at hn
    simp only [hs, Span.ofBytes, Position.ofByte, Text.byteLength_append]
    omega

theorem kind_ne (h : Cut file last n cs ts) {t : Token} (ht : t ∈ ts) : t.kind ≠ .endOfInput := by
  induction h with
  | nil => cases ht
  | cons hg hk h ih =>
    rcases List.mem_cons.mp ht with rfl | ht
    · rintro rfl
      cases hk
    · exact ih ht

end Cut

/-- A scan from byte `n` on goes through `before`, with these tokens, and stops at `bad`: there the
text ends or no lexeme can be taken. -/
structure StopsAt (file : String) (n : Nat) (before bad : List Char) (body : List Token) :
    Prop where
  cut : Cut file bad.isEmpty n before body
  scanned : scanFrom file n before =
    .ok (body ++ [Token.endOfInput (.ofBytes file (n + Text.byteLength before) 0)])
  stuck : bad = [] ∨ ∃ c more cause k, bad = c :: more ∧ Lexeme.take c more = .error (cause, k) ∧
    scanFrom file n (before ++ bad) = .error ⟨cause, .ofByte file (n + Text.byteLength before + k)⟩

namespace StopsAt

variable {file : String} {n : Nat} {before bad : List Char} {body : List Token}

theorem behind {gap : List Char} (hg : IsLayout false gap)
    (h : StopsAt file (n + Text.byteLength gap) before bad body) :
    StopsAt file n (gap ++ before) bad body where
  cut := h.cut.behind hg
  scanned := by
    rw [scanFrom_layout hg, h.scanned, Text.byteLength_append, Nat.add_assoc]
  stuck := by
    refine h.stuck.imp_right ?_
    rintro ⟨c, more, cause, k, hb, ht, hs⟩
    refine ⟨c, more, cause, k, hb, ht, ?_⟩
    rw [List.append_assoc, scanFrom_layout hg, hs, Text.byteLength_append, Nat.add_assoc n]

theorem token {k : Kind} {v : List Char} (hk : k.spells v = true)
    (ht : Lexeme.Takes (k.written v ++ (before ++ bad)) ⟨k.written v, some (k, v)⟩ (before ++ bad))
    (h : StopsAt file (n + Text.byteLength (k.written v)) before bad body) :
    StopsAt file n (k.written v ++ before) bad
      (⟨k, String.ofList v, .ofBytes file n (Text.byteLength (k.written v))⟩ :: body) where
  cut := .cons (n := n) .nil hk h.cut
  scanned := by
    rw [scanFrom_of_takes_token ht.of_append, h.scanned, Text.byteLength_append, Nat.add_assoc]
    rfl
  stuck := by
    refine h.stuck.imp_right ?_
    rintro ⟨c, more, cause, k, hb, hr, hs⟩
    refine ⟨c, more, cause, k, hb, hr, ?_⟩
    rw [List.append_assoc, scanFrom_of_takes_token ht, hs, Text.byteLength_append, Nat.add_assoc n]
    rfl

end StopsAt

theorem exists_stopsAt (file : String) (n : Nat) (cs : List Char) :
    ∃ before bad body, cs = before ++ bad ∧ StopsAt file n before bad body := by
  -- Every lexeme shortens the text, but a comment and the line feed behind it go in one step.
  induction h : cs.length using Nat.strong_induction_on generalizing n cs with
  | _ size ih =>
    subst h
    cases front cs with
    | nil => exact ⟨[], [], [], rfl, .nil .nil, by rw [scanFrom]; rfl, .inl rfl⟩
    | @blank c cs hc =>
      obtain ⟨before, bad, body, rfl, h⟩ := ih cs.length (by simp) (n + Text.byteLength [c]) cs rfl
      exact ⟨_, bad, body, rfl, h.behind (.blank hc .nil)⟩
    | @comment text cs hb =>
      obtain ⟨before, bad, body, rfl, h⟩ := ih cs.length (by simp; omega)
        (n + Text.byteLength ('/' :: '/' :: (text ++ ['\n']))) cs rfl
      exact ⟨_, bad, body, by simp, h.behind (.comment hb .nil)⟩
    | lastComment hb =>
      exact ⟨_, [], [], (List.append_nil _).symm, .nil (.lastComment rfl hb),
        scanFrom_lastComment hb, .inl rfl⟩
    | @token k v rest hk ht =>
      obtain ⟨before, bad, body, rfl, h⟩ := ih rest.length ht.length_lt
        (n + Text.byteLength (k.written v)) rest rfl
      exact ⟨_, bad, _, (List.append_assoc ..).symm, h.token hk ht⟩
    | refused h =>
      exact ⟨[], _, [], rfl, .nil .nil, by rw [scanFrom]; rfl,
        .inr ⟨_, _, _, _, rfl, h, scanFrom_of_refused h⟩⟩

theorem exists_stopsAt_string (file source : String) :
    ∃ before bad body, source = before ++ bad ∧
      StopsAt file 0 before.toList bad.toList body := by
  obtain ⟨before, bad, body, he, h⟩ := exists_stopsAt file 0 source.toList
  refine ⟨String.ofList before, String.ofList bad, body, ?_, by simpa using h⟩
  rw [← String.ofList_append, ← he, String.ofList_toList]

theorem ofBytes_zero (file : String) {n : Nat} (h : n < 4294967296) :
    Span.ofBytes file n 0 = .empty ⟨n, file⟩ := by
  rw [Span.ofBytes, Nat.add_zero, Position.ofByte, Nat.mod_eq_of_lt h]
  rfl

/-- The tokens and the layout around them make up the source: spans in order, none over another,
each on the bytes that the token is written with. -/
structure Partitions (file : String) (last : Bool) (source : String) (ts : List Token) : Prop where
  cut : Cut file last 0 source.toList ts
  ordered : ts.Pairwise fun t u => t.span.stop.offset ≤ u.span.start.offset
  slices : ∀ t ∈ ts, ∃ before after : String, source = before ++ t.written ++ after ∧
    t.span = ⟨⟨before.utf8ByteSize, file⟩, ⟨(before ++ t.written).utf8ByteSize, file⟩⟩
  kinds : ∀ t ∈ ts, t.kind ≠ .endOfInput

theorem Cut.partitions {file : String} {last : Bool} {source : String} {ts : List Token}
    (h : Cut file last 0 source.toList ts) (hs : source.utf8ByteSize < 4294967296) :
    Partitions file last source ts where
  cut := h
  ordered := h.ordered (by simpa using hs)
  slices t ht := by
    obtain ⟨before, after, he, hspan⟩ := h.slices ht
    have he : source = String.ofList before ++ t.written ++ String.ofList after := by
      simp [written, ← String.ofList_append, ← he]
    refine ⟨_, _, he, ?_⟩
    rw [he] at hs
    simp only [String.utf8ByteSize_append, Text.utf8ByteSize_ofList, written] at hs ⊢
    simp only [hspan, Span.ofBytes, Position.ofByte, Span.mk.injEq, Position.mk.injEq, and_true]
    omega
  kinds _ ht := h.kind_ne ht

/-- `d` refuses the lexeme at the front of `bad`, which is a string literal or one unknown
character, and is placed inside the refused text. -/
def RefusedAt (file : String) (before bad : String) (d : Diagnostic) : Prop :=
  ∃ c more k, bad.toList = c :: more ∧ Lexeme.take c more = .error (d.cause, k) ∧
    (c = '"' ∨ d.cause = .unrecognised (String.ofList [c]) ∧ k = 0) ∧
    k ≤ bad.utf8ByteSize ∧ d.position = ⟨before.utf8ByteSize + k, file⟩

/-- Tokens and layout partition every source, and where a scan fails they partition what stands
before the refused text, which is scanned by itself to the same tokens. -/
theorem scan_partitions (source : String) (hs : source.utf8ByteSize < 4294967296)
    (name? : Option String) :
    (∀ ts, scan source name? = .ok ts → ∃ body,
      ts = body ++ [Token.endOfInput (.empty ⟨source.utf8ByteSize, name?.getD Cursor.unnamed⟩)] ∧
      Partitions (name?.getD Cursor.unnamed) true source body) ∧
    ∀ d, scan source name? = .error d → ∃ before bad body, source = before ++ bad ∧
      scan before name? = .ok (body ++
        [Token.endOfInput (.empty ⟨before.utf8ByteSize, name?.getD Cursor.unnamed⟩)]) ∧
      Partitions (name?.getD Cursor.unnamed) false before body ∧
      RefusedAt (name?.getD Cursor.unnamed) before bad d := by
  generalize hf : name?.getD Cursor.unnamed = file
  simp only [scan, hf]
  obtain ⟨before, bad, body, rfl, h⟩ := exists_stopsAt_string file source
  rw [String.utf8ByteSize_append] at hs
  have hscan := h.scanned
  rw [Nat.zero_add, Text.byteLength_toList, ofBytes_zero file (by omega)] at hscan
  have hcut := h.cut.partitions (by omega)
  rcases h.stuck with hbad | ⟨c, more, cause, k, hbad, ht, hr⟩
  · obtain rfl : bad = "" := by simpa using hbad
    simp only [String.append_empty, hscan]
    refine ⟨fun ts hts => ?_, nofun⟩
    cases hts
    exact ⟨body, rfl, hcut⟩
  · rw [String.toList_append, hr]
    refine ⟨nofun, fun d hd => ?_⟩
    cases hd
    obtain ⟨hk, hc⟩ := Lexeme.take_eq_error ht
    rw [← hbad, Text.byteLength_toList] at hk
    rw [hbad] at hcut
    refine ⟨before, bad, body, rfl, hscan, hcut, c, more, k, hbad, ht, hc, hk, ?_⟩
    rw [Nat.zero_add, Text.byteLength_toList, Position.ofByte, Nat.mod_eq_of_lt (by omega)]

theorem scan_partitions_unclosed :
    (∃ body, scan "let s = \"é\" // c\n+ //" none =
        .ok (body ++ [Token.endOfInput (.empty ⟨22, "shell"⟩)]) ∧
      Partitions "shell" true "let s = \"é\" // c\n+ //" body) ∧
    ∃ before bad body, "x // é\n \"ab" = before ++ bad ∧
      Partitions "shell" false before body ∧
      RefusedAt "shell" before bad ⟨.unclosedString, ⟨9, "shell"⟩⟩ := by
  constructor
  · obtain ⟨ts, hts⟩ : ∃ ts, scan "let s = \"é\" // c\n+ //" none = .ok ts := ⟨_, by cbv⟩
    obtain ⟨body, rfl, hp⟩ := (scan_partitions _ (by decide) none).1 ts hts
    exact ⟨body, hts, hp⟩
  · obtain ⟨before, bad, body, he, -, hp, hr⟩ := (scan_partitions "x // é\n \"ab" (by decide)
      none).2 ⟨.unclosedString, ⟨9, "shell"⟩⟩ (by cbv)
    exact ⟨before, bad, body, he, hp, hr⟩

end Token

end RootedC
