import RootedC.Diagnostic.Basic
import RootedC.Source.Cursor
import RootedC.Token.Basic
import RootedC.Token.Pattern
import RootedC.Token.StringLiteral

/-!
Cutting a source text into tokens. Main statement: the lexeme that a step takes off is a non-empty
beginning of the text, so scanning ends.
-/
namespace RootedC

/-- A piece of source text and the token it stands for; blanks and comments stand for none. -/
structure Lexeme where
  text : List Char
  token? : Option (Kind × List Char)
  deriving DecidableEq, Repr

namespace Lexeme

/-- What a match of a pattern stands for. A quote goes on to the end of its string literal. A
failure has its byte offset from the start of the match. -/
def ofMatch (p : Pattern) (lexeme rest : List Char) :
    Except (Cause × Nat) (Lexeme × List Char) :=
  match p with
  | .word => .ok (⟨lexeme, some (Kind.ofWord (String.ofList lexeme), lexeme)⟩, rest)
  | .digits => .ok (⟨lexeme, some (.number, lexeme)⟩, rest)
  | .blanks | .comment => .ok (⟨lexeme, none⟩, rest)
  | .fixed kind _ => .ok (⟨lexeme, some (kind, lexeme)⟩, rest)
  | .quote =>
    match StringLiteral.scan rest with
    | .closed payload rest => .ok (⟨lexeme ++ payload ++ ['"'], some (.string, payload)⟩, rest)
    | .unclosed => .error (.unclosedString, 0)
    | .lineBreak offset => .error (.lineBreakInString, Text.byteLength lexeme + offset)
    | .badEscape offset c =>
      .error (.badEscape (String.ofList ['\\', c]), Text.byteLength lexeme + offset)

/-- The lexeme at the front of the text `c :: cs`, and the text after it. -/
def take (c : Char) (cs : List Char) : Except (Cause × Nat) (Lexeme × List Char) :=
  match Pattern.first? (c :: cs) with
  | none => .error (.unrecognised (String.ofList [c]), 0)
  | some (p, lexeme, rest) => ofMatch p lexeme rest

theorem eq_append_of_ofMatch {p : Pattern} {lexeme rest rest' : List Char} {l : Lexeme}
    (h : ofMatch p lexeme rest = .ok (l, rest')) :
    lexeme ++ rest = l.text ++ rest' ∧ (lexeme ≠ [] → l.text ≠ []) := by
  unfold ofMatch at h
  split at h
  case h_6 =>
    split at h
    · next hs =>
      cases h
      simp [StringLiteral.eq_of_scan_eq_closed hs]
    all_goals cases h
  all_goals
    cases h
    simp

theorem eq_append_of_take {c : Char} {cs rest : List Char} {l : Lexeme}
    (h : take c cs = .ok (l, rest)) : c :: cs = l.text ++ rest ∧ l.text ≠ [] := by
  unfold take at h
  split at h
  · cases h
  · next hf =>
    obtain ⟨hp, hs⟩ := Pattern.mem_table_of_first? hf
    obtain ⟨ha, hn⟩ := eq_append_of_ofMatch h
    exact ⟨(Pattern.eq_append_of_split? hs).trans ha, hn (Pattern.lexeme_ne_nil_of_split? hp hs)⟩

theorem length_lt_of_take {c : Char} {cs rest : List Char} {l : Lexeme}
    (h : take c cs = .ok (l, rest)) : rest.length < (c :: cs).length := by
  obtain ⟨ha, hn⟩ := eq_append_of_take h
  rw [ha, List.length_append]
  have := List.length_pos_iff.mpr hn
  omega

/-- The token of a lexeme that starts at byte `n` of a file, if it has one. -/
def tokenAt? (file : String) (n : Nat) (l : Lexeme) : Option Token :=
  l.token?.map fun (kind, value) =>
    ⟨kind, String.ofList value, .ofBytes file n (Text.byteLength l.text)⟩

end Lexeme

/-- The tokens of a text that starts at byte `n` of a file. -/
def Token.scanFrom (file : String) (n : Nat) : List Char → Except Diagnostic (List Token)
  | [] => .ok [.endOfInput (.ofBytes file n 0)]
  | c :: cs =>
    match _h : Lexeme.take c cs with
    | .error (cause, offset) => .error ⟨cause, .ofByte file (n + offset)⟩
    | .ok (l, rest) =>
      (Token.scanFrom file (n + Text.byteLength l.text) rest).map ((l.tokenAt? file n).toList ++ ·)
termination_by cs => cs.length
decreasing_by exact Lexeme.length_lt_of_take _h

/-- Cuts a source into tokens, the last of which is the end of input. A source without a file name
is read from the shell. -/
def Token.scan (source : String) (file : Option String) : Except Diagnostic (List Token) :=
  Token.scanFrom (file.getD Cursor.unnamed) 0 source.toList

end RootedC
