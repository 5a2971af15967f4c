import RootedC.Text.Blank
import RootedC.Token.Kind

/-!
The patterns by which a text is cut into lexemes. They stand in one table and the first that
matches is taken, so an operator stands before the operators that begin it.
-/
namespace RootedC

inductive Pattern where
  | word | digits | blanks | quote | comment
  | fixed (kind : Kind) (spelling : List Char)
  deriving DecidableEq, Repr

namespace Pattern

def isWordStart (c : Char) : Bool := c.isAlpha || c == '_'

def isWordPart (c : Char) : Bool := c.isAlphanum || c == '_'

/-- The patterns in the order in which they are tried. -/
def table : List Pattern :=
  [word, digits, blanks, quote, comment,
    fixed .openBracket ['['], fixed .closeBracket [']'],
    fixed .openCurly ['\x7b'], fixed .closeCurly ['\x7d'],
    fixed .openParen ['('], fixed .closeParen [')'],
    fixed .equals ['=', '='], fixed .notEquals ['!', '='],
    fixed .bang ['!'], fixed .assign ['='],
    fixed .lessEquals ['<', '='], fixed .less ['<'],
    fixed .greaterEquals ['>', '='], fixed .greater ['>'],
    fixed .or ['|', '|'], fixed .and ['&', '&'],
    fixed .semicolon [';'], fixed .colon [':'], fixed .comma [','],
    fixed .arrow ['-', '>'], fixed .plus ['+'], fixed .dash ['-'],
    fixed .slash ['/'], fixed .star ['*'], fixed .percent ['%']]

/-- What follows `spelling` in a text that begins with it. -/
def strip : List Char → List Char → Option (List Char)
  | [], cs => some cs
  | _ :: _, [] => none
  | a :: spelling, c :: cs => if a = c then strip spelling cs else none

/-- Cuts the longest match of a pattern off the front of a text; of a string literal only the
opening quote. -/
def split? : Pattern → List Char → Option (List Char × List Char)
  | word, c :: cs =>
    if isWordStart c then some (c :: cs.takeWhile isWordPart, cs.dropWhile isWordPart) else none
  | digits, c :: cs =>
    if c.isDigit then some (c :: cs.takeWhile Char.isDigit, cs.dropWhile Char.isDigit) else none
  | blanks, c :: cs =>
    if Text.isBlank c then some (c :: cs.takeWhile Text.isBlank, cs.dropWhile Text.isBlank)
    else none
  | quote, '"' :: cs => some (['"'], cs)
  | comment, '/' :: '/' :: cs =>
    some ('/' :: '/' :: cs.takeWhile (· != '\n'), cs.dropWhile (· != '\n'))
  | fixed _ spelling, cs => (strip spelling cs).map fun rest => (spelling, rest)
  | _, _ => none

/-- The first pattern of the table that matches, with its lexeme and the text after it. -/
def first? (cs : List Char) : Option (Pattern × List Char × List Char) :=
  table.findSome? fun p => (p.split? cs).map fun (lexeme, rest) => (p, lexeme, rest)

theorem eq_append_of_strip {spelling cs rest : List Char} (h : strip spelling cs = some rest) :
    cs = spelling ++ rest := by
  fun_induction strip spelling cs <;> simp_all

theorem eq_append_of_split? {p : Pattern} {cs lexeme rest : List Char}
    (h : p.split? cs = some (lexeme, rest)) : cs = lexeme ++ rest := by
  unfold split? at h
  split at h
  case h_6 =>
    obtain ⟨r, hr, h⟩ := Option.map_eq_some_iff.mp h
    cases h
    exact eq_append_of_strip hr
  all_goals grind [List.takeWhile_append_dropWhile]

theorem lexeme_ne_nil_of_split? {p : Pattern} (hp : p ∈ table) {cs lexeme rest : List Char}
    (h : p.split? cs = some (lexeme, rest)) : lexeme ≠ [] := by
  unfold split? at h
  split at h
  case h_6 =>
    obtain ⟨r, hr, h⟩ := Option.map_eq_some_iff.mp h
    cases h
    rintro rfl
    simp [table] at hp
  all_goals grind

theorem mem_table_of_first? {p : Pattern} {cs lexeme rest : List Char}
    (h : first? cs = some (p, lexeme, rest)) :
    p ∈ table ∧ p.split? cs = some (lexeme, rest) := by
  obtain ⟨q, hq, h⟩ := List.exists_of_findSome?_eq_some h
  obtain ⟨⟨a, b⟩, hs, h⟩ := Option.map_eq_some_iff.mp h
  cases h
  exact ⟨hq, hs⟩

end Pattern

end RootedC
