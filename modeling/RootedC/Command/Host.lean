/-!
What the command line asks of the machine it runs on. The operations are fields of a structure over
a monad, so that the same program runs on a real machine and on one in memory.
-/
namespace RootedC.Command

/-- Why the machine refused something. -/
inductive HostError where
  | notFound | permissionDenied | alreadyExists | notDirectory | isDirectory | nameTooLong
  | invalidText
  | other (text : String)
  deriving DecidableEq, Repr

def HostError.message : HostError → String
  | notFound => "No such file or directory (os error 2)"
  | permissionDenied => "Permission denied (os error 13)"
  | alreadyExists => "File exists (os error 17)"
  | notDirectory => "Not a directory (os error 20)"
  | isDirectory => "Is a directory (os error 21)"
  | nameTooLong => "File name too long (os error 36)"
  | invalidText => "stream did not contain valid UTF-8"
  | other text => text

/-- What a program that was run left behind. -/
structure Finished where
  exit : UInt32
  output : String
  errors : String

structure Host (m : Type → Type) where
  readText : String → m (Except HostError String)
  writeText : String → String → m (Except HostError Unit)
  /-- Makes a directory and those around it, where they do not exist. -/
  makeDirectory : String → m (Except HostError Unit)
  setting? : String → m (Option String)
  run : String → List String → m (Except HostError Finished)
  print : String → m Unit
  printError : String → m Unit
  startClock : m Unit
  /-- The time since the last lap, or since the clock was started. -/
  lap : m String
  /-- The time since the clock was started. -/
  total : m String

end RootedC.Command
