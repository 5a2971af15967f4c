import RootedC.Command.Run
import RootedC.Text.Duration

/-!
The program. It reads and writes files of the machine it runs on and starts no other programs, so a
run that needs the C compiler ends after the C text is written.
-/
namespace RootedC.Command

def HostError.ofError : IO.Error → HostError
  | .noFileOrDirectory .. => .notFound
  | .permissionDenied .. => .permissionDenied
  | .alreadyExists .. => .alreadyExists
  | .inappropriateType _ 20 _ => .notDirectory
  | .inappropriateType .. => .isDirectory
  | e => .other e.toString

def attempt {α : Type} (act : IO α) : IO (Except HostError α) := do
  match ← act.toBaseIO with
  | .ok a => return .ok a
  | .error e => return .error (.ofError e)

/-- The machine; the reference holds when the clock was started and when the last lap ended. -/
def machine (clock : IO.Ref (Nat × Nat)) : Host IO where
  readText path := do
    match ← attempt (IO.FS.readBinFile path) with
    | .error e => return .error e
    | .ok content =>
      match String.fromUTF8? content with
      | some text => return .ok text
      | none => return .error .invalidText
  writeText path text := attempt (IO.FS.writeFile path text)
  makeDirectory path := attempt (IO.FS.createDirAll path)
  setting? name := IO.getEnv name
  run _ _ := return .error (.other "starting programs is not supported")
  print text := do (← IO.getStdout).putStr text
  printError text := do (← IO.getStderr).putStr text
  startClock := do
    let now ← IO.monoNanosNow
    clock.set (now, now)
  lap := do
    let now ← IO.monoNanosNow
    let (start, last) ← clock.get
    clock.set (start, now)
    return Text.duration (now - last)
  total := do
    let now ← IO.monoNanosNow
    let (start, _) ← clock.get
    return Text.duration (now - start)

end RootedC.Command

def main (arguments : List String) : IO UInt32 := do
  RootedC.Command.run (RootedC.Command.machine (← IO.mkRef (0, 0))) arguments
