/-! Paths as texts. -/
namespace RootedC.Command.Path

/-- The pieces of a path between its slashes. -/
def pieces : List Char → List (List Char)
  | [] => [[]]
  | c :: cs =>
    if c = '/' then [] :: pieces cs
    else match pieces cs with
      | [] => [[c]]
      | piece :: more => (c :: piece) :: more

/-- The names on a path, dots among them; several slashes count as one. -/
def names (path : String) : List String :=
  ((pieces path.toList).map String.ofList).filter (· ≠ "")

/-- The steps of a path; single dots lead nowhere. -/
def steps (path : String) : List String := (names path).filter (· ≠ ".")

def isAbsolute (path : String) : Bool := path.toList.head? = some '/'

def endsInSlash (path : String) : Bool := path.toList.getLast? = some '/'

/-- The last step of a path, if it names something. -/
def fileName? (path : String) : Option String := (steps path).getLast?.filter (· ≠ "..")

/-- The name under which a source is known in messages: its last step, or the whole path. -/
def fileName (path : String) : String := (fileName? path).getD path

/-- A name inside a directory. -/
def join (directory name : String) : String :=
  match directory.toList.getLast? with
  | none => name
  | some '/' => directory ++ name
  | some _ => directory ++ "/" ++ name

end RootedC.Command.Path
