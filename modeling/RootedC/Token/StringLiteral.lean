import RootedC.Text.Bytes

/-!
The inside of a string literal: characters other than the quote, the backslash and the line feed,
and the five escapes. Escapes are checked here and stay as written. Main statement: a scan that
finds the closing quote loses nothing.
-/
namespace RootedC.StringLiteral

/-- The characters that may follow a backslash. -/
def isEscape (c : Char) : Bool :=
  c == 'n' || c == 't' || c == 'r' || c == '\\' || c == '"'

/-- What a scan of the text after an opening quote finds; offsets are in bytes of that text. -/
inductive Scan where
  | closed (payload rest : List Char)
  | unclosed
  | lineBreak (offset : Nat)
  | badEscape (offset : Nat) (c : Char)
  deriving DecidableEq, Repr

/-- The scan of the text that has `item` in front. -/
def Scan.prepend (item : List Char) : Scan → Scan
  | .closed payload rest => .closed (item ++ payload) rest
  | .unclosed => .unclosed
  | .lineBreak offset => .lineBreak (Text.byteLength item + offset)
  | .badEscape offset c => .badEscape (Text.byteLength item + offset) c

def scan : List Char → Scan
  | [] => .unclosed
  | '"' :: rest => .closed [] rest
  | '\n' :: _ => .lineBreak 0
  | ['\\'] => .unclosed
  | '\\' :: c :: rest =>
    if c = '\n' then .lineBreak 0
    else if isEscape c then (scan rest).prepend ['\\', c]
    else .badEscape 0 c
  | c :: rest => (scan rest).prepend [c]

theorem prepend_eq_closed {item payload rest : List Char} {s : Scan}
    (h : s.prepend item = .closed payload rest) :
    ∃ p, s = .closed p rest ∧ payload = item ++ p := by
  cases s <;> simp_all [Scan.prepend]

theorem eq_of_scan_eq_closed {cs payload rest : List Char} (h : scan cs = .closed payload rest) :
    cs = payload ++ '"' :: rest := by
  fun_induction scan cs generalizing payload with
  | case1 | case3 | case4 | case5 | case7 => simp at h
  | case2 => simp_all
  | case6 c r _ _ ih =>
    obtain ⟨p, hp, rfl⟩ := prepend_eq_closed h
    simpa using ih hp
  | case8 c r _ _ _ _ ih =>
    obtain ⟨p, hp, rfl⟩ := prepend_eq_closed h
    simpa using ih hp

end RootedC.StringLiteral
