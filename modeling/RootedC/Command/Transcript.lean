import RootedC.Compile
import RootedC.Source.Line

/-!
What a run prints about its times. Times differ from run to run, so a transcript that is to be
compared has a mark in their place.
-/
namespace RootedC.Command.Transcript

/-- What stands before the time that a phase took. -/
def phaseLabel (p : Phase) : String := p.name ++ " in "

/-- What stands before the time that all phases took. -/
def generationLabel : String := "Total time for C generation: "

/-- What stands before the time of a run with the C compiler. -/
def totalLabel : String := "Total time: "

def labels : List String := Phase.all.map phaseLabel ++ [generationLabel, totalLabel]

/-- The mark that stands for every time. -/
def timeMark : String := "<time>"

/-- A line, or a line with its line break, whose time is hidden if it starts with a label. -/
def hideTime (line : List Char) : List Char :=
  match labels.find? fun label => label.toList.isPrefixOf line with
  | some label => label.toList ++ timeMark.toList ++ line.filter (· = '\n')
  | none => line

/-- A transcript with the mark in place of all that stands behind a label. -/
def hideTimes (text : String) : String :=
  String.ofList ((splitLines text.toList).flatMap hideTime)

end RootedC.Command.Transcript
