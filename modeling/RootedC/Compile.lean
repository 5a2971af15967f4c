import RootedC.Code.Lowering
import RootedC.Code.Render
import RootedC.Reading.Module
import RootedC.Token.Scan
import RootedC.Typing.Module

/-!
Compiling a source text to C, phase by phase. Nothing comes out unless every phase succeeds.
-/
namespace RootedC

inductive Phase where
  | tokenized | parsed | checked | lowered | rendered
  deriving DecidableEq, Repr

def Phase.all : List Phase := [.tokenized, .parsed, .checked, .lowered, .rendered]

def Phase.name : Phase → String
  | tokenized => "Tokenized"
  | parsed => "Parsed"
  | checked => "Type checked"
  | lowered => "Lowered"
  | rendered => "Emitted"

/-- The C text of a source, or the first thing wrong with it. -/
def compile (source file : String) : Except Diagnostic String := do
  let tokens ← Token.scan source (some file)
  let parsed ← Module.ofTokens tokens file
  let typed ← parsed.check
  let code ← typed.lower
  return code.render

variable {m : Type → Type} [Monad m]

/-- Compiles and tells of every phase that is finished. -/
def compileTelling (finished : Phase → m Unit) (source file : String) :
    m (Except Diagnostic String) := do
  match Token.scan source (some file) with
  | .error d => return .error d
  | .ok tokens =>
    finished .tokenized
    match Module.ofTokens tokens file with
    | .error d => return .error d
    | .ok parsed =>
      finished .parsed
      match parsed.check with
      | .error d => return .error d
      | .ok typed =>
        finished .checked
        match typed.lower with
        | .error d => return .error d
        | .ok code =>
          finished .lowered
          let text := code.render
          finished .rendered
          return .ok text

/-- The outcome of a compilation and the phases it finished. -/
def compileTraced (source file : String) : Except Diagnostic String × List Phase :=
  (compileTelling (fun p => modify (· ++ [p])) source file : StateM (List Phase) _).run []

/-- Telling of the phases does not change the outcome. -/
theorem compileTelling_eq [LawfulMonad m] (source file : String) :
    compileTelling (m := m) (fun _ => pure ()) source file = pure (compile source file) := by
  simp only [compileTelling, compile, bind, Except.bind, pure, Except.pure]
  split
  · simp [*]
  · simp only [*]
    split
    · simp [*]
    · simp only [*]
      split
      · simp [*]
      · simp only [*]
        split <;> simp [*]

end RootedC
