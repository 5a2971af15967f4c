/-! The command line: a source file and a few flags. -/
namespace RootedC.Command

structure Options where
  source : String
  /-- Where to write the C text instead of compiling it further. -/
  emitC? : Option String
  /-- Whether the runtime is to check its memory. -/
  memoryDebug : Bool
  deriving DecidableEq, Repr

inductive UsageError where
  | missingPath
  | unknownFlag (flag : String)
  | secondSource
  | noSource
  deriving DecidableEq, Repr

def UsageError.message : UsageError → String
  | missingPath => "--emit-c expects a path"
  | unknownFlag flag => "Unknown flag " ++ flag
  | secondSource => "Only one source file can be compiled"
  | noSource => "No source file provided"

def usage : String := "Usage: ajisai <source> [--emit-c <path>] [--mm-debug]"

def isFlag (argument : String) : Bool :=
  match argument.toList with
  | '-' :: '-' :: _ => true
  | _ => false

namespace Options

/-- Reads arguments from left to right; what is known so far comes first. -/
def readFrom (source? emitC? : Option String) (memoryDebug : Bool) :
    List String → Except UsageError Options
  | [] =>
    match source? with
    | some source => .ok ⟨source, emitC?, memoryDebug⟩
    | none => .error .noSource
  | ["--emit-c"] => .error .missingPath
  | "--emit-c" :: path :: more => readFrom source? (some path) memoryDebug more
  | "--mm-debug" :: more => readFrom source? emitC? true more
  | argument :: more =>
    if isFlag argument then .error (.unknownFlag argument)
    else
      match source? with
      | some _ => .error .secondSource
      | none => readFrom (some argument) emitC? memoryDebug more

def ofArguments (arguments : List String) : Except UsageError Options :=
  readFrom none none false arguments

end Options

end RootedC.Command
