import RootedC.Proofs.Rendering.Literals
import RootedC.Proofs.Token.Spelling

/-!
The length of a string literal. Main statement: counting the bytes of what stands between the
quotes, a backslash and the byte behind it for one, gives the size of the text that is meant.
-/
namespace RootedC.StringLiteral

/-- The text that is meant: each escape is replaced by the character it stands for. -/
def unescaped : List Char → List Char
  | '\\' :: c :: rest => escaped c :: unescaped rest
  | c :: rest => c :: unescaped rest
  | [] => []

/-- A text that a scan of some source finds between the quotes of a string literal. -/
def Scanned (p : String) : Prop :=
  ∃ source name? ts t, Token.scan source name? = .ok ts ∧ t ∈ ts ∧ t.kind = .string ∧ t.value = p

theorem isPayload_of_scanned {p : String} (h : Scanned p) : isPayload p.toList = true := by
  obtain ⟨source, name?, ts, t, hts, ht, hk, rfl⟩ := h
  have hfrom := (Token.scan_from source (name?.getD Cursor.unnamed)).1 ts
    (by cases name? <;> exact hts) t ht
  exact hfrom.text hk

/-- What may stand between quotes is found there. -/
theorem scanned_of_isPayload {p : String} (h : isPayload p.toList = true) : Scanned p := by
  have hscan := @Token.scanFrom_spelling Cursor.unnamed [((.string, p), [])]
    (List.forall_mem_singleton.mpr h) (by simp) (by simp) 0
  cases hts : Token.scanFrom Cursor.unnamed 0 (Token.spelling [((.string, p), [])]) with
  | error d =>
    rw [hts] at hscan
    cases hscan
  | ok ts =>
    rw [hts] at hscan
    have hmem : (Kind.string, p) ∈ ts.map fun t => (t.kind, t.value) := by
      rw [Except.ok.inj hscan]
      simp
    obtain ⟨t, ht, hw⟩ := List.mem_map.mp hmem
    obtain ⟨hk, hv⟩ := Prod.mk.inj hw
    refine ⟨String.ofList (Token.spelling [((.string, p), [])]), none, ts, t, ?_, ht, hk, hv⟩
    rw [Token.scan, String.toList_ofList]
    exact hts

theorem scanned_iff {p : String} : Scanned p ↔ isPayload p.toList = true :=
  ⟨isPayload_of_scanned, scanned_of_isPayload⟩

theorem unescaped_cons {c : Char} (hc : c ≠ '\\') (rest : List Char) :
    unescaped (c :: rest) = c :: unescaped rest := by
  rw [unescaped]
  simp [hc]

/-- The bytes of a payload are those of the text that is meant. -/
theorem length_decoded {p : List Char} (h : isPayload p = true) :
    (decoded p).length = Text.byteLength (unescaped p) := by
  fun_induction isPayload p with
  | case1 => rfl
  | case2 => cases h
  | case3 c rest ih =>
    rw [Bool.and_eq_true] at h
    rw [decoded, unescaped, List.length_append, String.length_utf8EncodeChar, ih h.2,
      Text.byteLength_cons]
  | case4 c rest hb hb' ih =>
    have hc := ne_backslash hb hb'
    rw [decoded_cons hc, unescaped_cons hc, List.length_append, String.length_utf8EncodeChar,
      ih (isPayload_plain hc ((isPayload_cons hc rest).trans h)).2.2, Text.byteLength_cons]

/-- No escape goes over the end of a payload, so payloads can be put together. -/
theorem append_payload {p : List Char} (h : isPayload p = true) (q : List Char) :
    isPayload (p ++ q) = isPayload q ∧ unescaped (p ++ q) = unescaped p ++ unescaped q := by
  fun_induction isPayload p with
  | case1 => exact ⟨rfl, rfl⟩
  | case2 => cases h
  | case3 c rest ih =>
    rw [Bool.and_eq_true] at h
    obtain ⟨hpayload, htext⟩ := ih h.2
    constructor
    · rw [List.cons_append, List.cons_append, isPayload, h.1, hpayload, Bool.true_and]
    · rw [List.cons_append, List.cons_append, unescaped, htext, unescaped, List.cons_append]
  | case4 c rest hb hb' ih =>
    have hc := ne_backslash hb hb'
    obtain ⟨hq, hn, hrest⟩ := isPayload_plain hc ((isPayload_cons hc rest).trans h)
    obtain ⟨hpayload, htext⟩ := ih hrest
    constructor
    · rw [List.cons_append, isPayload_cons hc, hpayload]
      simp [hq, hn]
    · rw [List.cons_append, unescaped_cons hc, htext, unescaped_cons hc, List.cons_append]

theorem decodedLength_eq_size {p : String} (h : isPayload p.toList = true) :
    Text.decodedLength p = (String.ofList (unescaped p.toList)).utf8ByteSize := by
  rw [decodedLength_eq h, length_decoded h, Text.utf8ByteSize_ofList]

/-- The length of a literal counts the bytes of the text that is meant, for all that a scan can find
between quotes; so the lengths of two literals add up to that of both together. -/
theorem decodedLength_counts_bytes {p q : String} (hp : Scanned p) (hq : Scanned q) :
    Text.decodedLength p = (String.ofList (unescaped p.toList)).utf8ByteSize ∧
      Scanned (p ++ q) ∧
      Text.decodedLength (p ++ q) = Text.decodedLength p + Text.decodedLength q := by
  have hp := scanned_iff.mp hp
  have hq := scanned_iff.mp hq
  obtain ⟨hpayload, htext⟩ := append_payload hp q.toList
  rw [← String.toList_append] at hpayload htext
  have hboth := hpayload.trans hq
  refine ⟨decodedLength_eq_size hp, scanned_iff.mpr hboth, ?_⟩
  rw [decodedLength_eq_size hboth, htext, decodedLength_eq_size hp, decodedLength_eq_size hq,
    String.ofList_append, String.utf8ByteSize_append]

/-- A letter of two bytes before an escape, two backslashes at the end, and an escaped quote behind
them in the second literal: four bytes and one. -/
theorem decodedLength_counts_bytes_backslashes :
    Scanned "é\\n\\\\" ∧ Scanned "\\\"" ∧ unescaped "é\\n\\\\".toList = ['é', '\n', '\\'] ∧
      Text.decodedLength "é\\n\\\\" = (String.ofList ['é', '\n', '\\']).utf8ByteSize ∧
      Text.decodedLength ("é\\n\\\\" ++ "\\\"") =
        Text.decodedLength "é\\n\\\\" + Text.decodedLength "\\\"" := by
  have hp : Scanned "é\\n\\\\" := scanned_iff.mpr (by decide)
  have hq : Scanned "\\\"" := scanned_iff.mpr (by decide)
  have htext : unescaped "é\\n\\\\".toList = ['é', '\n', '\\'] := by decide
  obtain ⟨hlength, -, hsum⟩ := decodedLength_counts_bytes hp hq
  rw [htext] at hlength
  exact ⟨hp, hq, htext, hlength, hsum⟩

end RootedC.StringLiteral
