import RootedC.Command.FileTree
import RootedC.Command.Transcript

/-!
A machine in memory: a tree of files, settings, a few programs, and what was printed. Its clock does
not run, every time it gives is the same mark.
-/
namespace RootedC.Command

structure Memory where
  files : FileTree
  settings : List (String × String)
  programs : List (String × (List String → Finished))
  output : String
  errors : String

namespace Memory

/-- Words divided by spaces, as a line. -/
def echoLine (words : List String) : String :=
  match words with
  | [] => "\n"
  | w :: more => more.foldl (fun line word => line ++ " " ++ word) w ++ "\n"

/-- Programs that touch no file: one that repeats its arguments, one that succeeds and one that
fails. -/
def plainPrograms : List (String × (List String → Finished)) :=
  [("echo", fun arguments => ⟨0, echoLine arguments, ""⟩), ("true", fun _ => ⟨0, "", ""⟩),
    ("false", fun _ => ⟨1, "", ""⟩)]

/-- The program that a name stands for. A name with a slash is a path, and nothing in the tree of
files can be run; the directories where programs are looked for hold themselves as dots. -/
def program (s : Memory) (name : String) : Except HostError (List String → Finished) :=
  if name.toList.contains '/' then (s.files.find name).bind fun _ => .error .permissionDenied
  else if name = "." || name = ".." then .error .permissionDenied
  else if FileTree.nameLimit < name.utf8ByteSize then .error .nameTooLong
  else
    match s.programs.lookup name with
    | some run => .ok run
    | none => .error .notFound

def update (change : FileTree → Except HostError FileTree) :
    StateM Memory (Except HostError Unit) := fun s =>
  match change s.files with
  | .ok files => (.ok (), { s with files })
  | .error e => (.error e, s)

def host : Host (StateM Memory) where
  readText path := fun s => (s.files.readText path, s)
  writeText path text := update (·.writeText path text)
  makeDirectory path := update (·.makeDirectory path)
  setting? name := fun s => (s.settings.lookup name, s)
  run name arguments := fun s => ((s.program name).map fun run => run arguments, s)
  print text := fun s => ((), { s with output := s.output ++ text })
  printError text := fun s => ((), { s with errors := s.errors ++ text })
  startClock := pure ()
  lap := pure Transcript.timeMark
  total := pure Transcript.timeMark

end Memory

end RootedC.Command
