import RootedC.Command.Host
import RootedC.Command.Options
import RootedC.Command.Path
import RootedC.Command.Transcript
import RootedC.Diagnostic.Report

/-!
The command: compile a source file to C and, unless only the C text is wanted, hand it to the C
compiler. Every failure ends the run before anything later is touched.
-/
namespace RootedC.Command

def exitOk : UInt32 := 0

def exitFailure : UInt32 := 1

def exitUsage : UInt32 := 2

def buildDirectory : String := "build"

def buildSource : String := "build/out.c"

def buildProgram : String := "build/output"

/-- Flags for the C compiler. -/
def cFlags : List String :=
  ["-std=c11", "-Wno-unused-variable", "-Wno-unused-parameter", "-Wno-unused-value",
    "-Wno-unused-but-set-variable"]

/-- What the C compiler is called with. -/
def cArguments (options : Options) (runtime : String) : List String :=
  cFlags ++ (if options.memoryDebug then ["-DAJISAI_MM_DEBUG"] else []) ++
    ["-I", runtime, buildSource, Path.join runtime "ajisai_runtime.c", "-o", buildProgram]

variable {m : Type → Type} [Monad m]

def failed (host : Host m) (what : String) (e : HostError) : m UInt32 := do
  host.printError ("Failed to " ++ what ++ ": " ++ e.message ++ "\n")
  return exitFailure

def announce (host : Host m) (p : Phase) : m Unit := do
  host.print (Transcript.phaseLabel p ++ (← host.lap) ++ "\n")

/-- Compiles the C text in the build directory. -/
def compileC (host : Host m) (options : Options) : m UInt32 := do
  let compiler := (← host.setting? "CC").getD "cc"
  let runtime := (← host.setting? "AJISAI_RUNTIME_DIR").getD "runtime"
  match ← host.run compiler (cArguments options runtime) with
  | .error e => failed host ("run " ++ compiler) e
  | .ok finished =>
    host.print finished.output
    host.printError finished.errors
    if finished.exit = exitOk then
      host.print ("Compiled using " ++ compiler ++ "\n")
      host.print (Transcript.totalLabel ++ (← host.total) ++ "\n")
      return exitOk
    else return finished.exit

/-- What is done with the C text. -/
def deliver (host : Host m) (options : Options) (text : String) : m UInt32 := do
  match options.emitC? with
  | some path =>
    match ← host.writeText path text with
    | .error e => failed host ("write " ++ path) e
    | .ok _ =>
      host.print ("Wrote " ++ path ++ "\n")
      return exitOk
  | none =>
    match ← host.makeDirectory buildDirectory with
    | .error e => failed host "create build directory" e
    | .ok _ =>
      match ← host.writeText buildSource text with
      | .error e => failed host ("write " ++ buildSource) e
      | .ok _ => compileC host options

/-- Runs the command with some arguments and gives its exit code. -/
def run (host : Host m) (arguments : List String) : m UInt32 := do
  match Options.ofArguments arguments with
  | .error e =>
    host.printError (e.message ++ "\n" ++ usage ++ "\n")
    return exitUsage
  | .ok options =>
    match ← host.readText options.source with
    | .error e => failed host ("read " ++ options.source) e
    | .ok source =>
      host.startClock
      match ← compileTelling (announce host) source (Path.fileName options.source) with
      | .error d =>
        host.print (d.report options.source source)
        return exitFailure
      | .ok text =>
        host.print (Transcript.generationLabel ++ (← host.total) ++ "\n")
        deliver host options text

end RootedC.Command
