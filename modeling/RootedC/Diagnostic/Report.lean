import RootedC.Diagnostic.Basic
import RootedC.Source.Line
import RootedC.Text.Blank

/-!
The report of a diagnostic shows its cause and tip, the file, and the source line with a caret
under the place:

    Error: UnrecognisedToken
    -> main.aj
       |
    20 | let a = #;
       | --------^
-/
namespace RootedC.Diagnostic

/-- `text` moved right to the given width by the character `fill`. -/
def padLeft (fill : Char) (width : Nat) (text : List Char) : List Char :=
  List.replicate (width - text.length) fill ++ text

/-- A space or a tab: what a report removes from the start of a line. -/
def isIndent (c : Char) : Bool := c == ' ' || c == '\t'

def heading (d : Diagnostic) : String :=
  match d.cause.tip? with
  | none => "Error: " ++ d.cause.name
  | some tip => "Error: " ++ d.cause.name ++ " (" ++ tip ++ ")"

/-- The margin line above the source line. -/
def margin (line : Line) : List Char := padLeft ' ' (line.number.repr.length + 2) ['|']

/-- The source line behind its number, without indentation and blanks at the end. -/
def sourceLine (line : Line) : List Char :=
  line.number.repr.toList ++ " | ".toList ++ Text.trimEnd (line.text.dropWhile isIndent)

/-- The caret line: as many dashes as bytes stand between the indentation and the place. -/
def caretLine (line : Line) : List Char :=
  margin line ++ ' ' ::
    padLeft '-' (line.column - (line.text.takeWhile isIndent).length + 1) ['^']

def excerpt (line : Line) : List (List Char) := [margin line, sourceLine line, caretLine line]

/-- The report as lines; an empty source has no line to show. -/
def reportLines (d : Diagnostic) (path source : String) : List String :=
  [d.heading, "-> " ++ path] ++
    match Line.at? source d.position.offset with
    | none => []
    | some line => (excerpt line).map String.ofList

def report (d : Diagnostic) (path source : String) : String :=
  String.join ((d.reportLines path source).map (· ++ "\n"))

end RootedC.Diagnostic
