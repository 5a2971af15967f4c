import RootedC.Code.Builder
import RootedC.Code.Instr
import RootedC.Code.Lowering
import RootedC.Code.Module
import RootedC.Code.Render
import RootedC.Command.FileTree
import RootedC.Command.Host
import RootedC.Command.Memory
import RootedC.Command.Options
import RootedC.Command.Path
import RootedC.Command.Run
import RootedC.Command.Transcript
import RootedC.Compile
import RootedC.Diagnostic.Basic
import RootedC.Diagnostic.Cause
import RootedC.Diagnostic.Report
import RootedC.Main
import RootedC.Reading.Expr
import RootedC.Reading.Grammar
import RootedC.Reading.Module
import RootedC.Reading.Outcome
import RootedC.Reading.Power
import RootedC.Reading.Stream
import RootedC.Reading.TypeExpr
import RootedC.Source.Cursor
import RootedC.Source.Line
import RootedC.Source.Position
import RootedC.Syntax.Expr
import RootedC.Syntax.Module
import RootedC.Syntax.TypeExpr
import RootedC.Text.Blank
import RootedC.Text.Bytes
import RootedC.Text.Decimal
import RootedC.Text.Decoded
import RootedC.Text.Duration
import RootedC.Text.Extender
import RootedC.Text.Graphic
import RootedC.Text.Ignorable
import RootedC.Text.Quoted
import RootedC.Text.Range
import RootedC.Token.Basic
import RootedC.Token.Kind
import RootedC.Token.Pattern
import RootedC.Token.Scan
import RootedC.Token.StringLiteral
import RootedC.Typing.Bindings
import RootedC.Typing.Builtin
import RootedC.Typing.Context
import RootedC.Typing.Expr
import RootedC.Typing.Module
import RootedC.Typing.Operator
import RootedC.Typing.Scope
import RootedC.Typing.Tree
import RootedC.Typing.Ty
import RootedC.Proofs.Typing.Lexical
import RootedC.Proofs.Outcome
import RootedC.Proofs.Typing.Arena
import RootedC.Proofs.Typing.Inversion
import RootedC.Proofs.Typing.Filling
import RootedC.Proofs.Typing.Fits
import RootedC.Proofs.Semantics.Machine
import RootedC.Proofs.Semantics.Program
import RootedC.Proofs.Typing.Items
import RootedC.Proofs.Lowering.Inversion
import RootedC.Proofs.Lowering.Units
import RootedC.Proofs.Lowering.Implements
import RootedC.Proofs.Lowering.Literals
import RootedC.Proofs.Lowering.Simulation
import RootedC.Proofs.Typing.Globals
import RootedC.Proofs.Lowering.Checked
import RootedC.Proofs.Lowering.Meaning
import RootedC.Proofs.Lowering.Rooting
import RootedC.Proofs.Lowering.RootSafety
import RootedC.Proofs.Typing.Decides
import RootedC.Proofs.Typing.Approximation
import RootedC.Proofs.Typing.Shift
import RootedC.Proofs.Typing.Reachable
import RootedC.Proofs.Typing.Annotation
import RootedC.Proofs.Typing.Occurrence
import RootedC.Proofs.Typing.Leniency
import RootedC.Proofs.Semantics.Kinds
import RootedC.Proofs.Typing.Integers
import RootedC.Proofs.Typing.Signatures
import RootedC.Proofs.Typing.Soundness
import RootedC.Proofs.Semantics.Static
import RootedC.Proofs.Lowering.CTypes
import RootedC.Proofs.Lowering.Scoping
import RootedC.Proofs.Typing.RootSlots
import RootedC.Proofs.Lowering.Refusal
import RootedC.Proofs.Reading.Consumption
import RootedC.Proofs.Reading.Phrase
import RootedC.Proofs.Reading.Readers
import RootedC.Proofs.Reading.Soundness
import RootedC.Proofs.Reading.Completeness
import RootedC.Proofs.Reading.Modules
import RootedC.Proofs.Reading.Printing
import RootedC.Proofs.Reading.RoundTrip
import RootedC.Proofs.Places
import RootedC.Proofs.Reading.Places
import RootedC.Proofs.Typing.Places
import RootedC.Proofs.Lowering.Places
import RootedC.Proofs.Token.Lexemes
import RootedC.Proofs.Token.Gaps
import RootedC.Proofs.Token.Partition
import RootedC.Proofs.Token.Spelling
import RootedC.Proofs.Layout
import RootedC.Proofs.Typing.Renumbering
import RootedC.Proofs.Typing.Order
import RootedC.Proofs.Lowering.Order
import RootedC.Proofs.Reading.Provenance
import RootedC.Proofs.Typing.Provenance
import RootedC.Proofs.Lowering.Provenance
import RootedC.Proofs.Provenance
import RootedC.Proofs.Rendering.Identifiers
import RootedC.Proofs.Rendering.Clashes
import RootedC.Proofs.Rendering.Literals
import RootedC.Proofs.Rendering.CTokens
import RootedC.Proofs.Rendering.CSyntax
import RootedC.Proofs.Rendering.CGrammar
import RootedC.Proofs.Rendering.CReading
import RootedC.Proofs.Rendering.Operands
import RootedC.Proofs.Rendering.Denotation
import RootedC.Proofs.Command.Artifacts
import RootedC.Proofs.Lowering.RootTables
import RootedC.Proofs.Typing.Repass
import RootedC.Proofs.Typing.Resolution
import RootedC.Proofs.Token.Escapes
import RootedC.Proofs.Reading.Spans
import RootedC.Proofs.Typing.Confinement
import RootedC.Proofs.Lowering.Interning
import RootedC.Proofs.Source.Lines
import RootedC.Proofs.Diagnostic.Caret
import RootedC.Proofs.Text.Decoded
import RootedC.Proofs.Typing.Display
import RootedC.Proofs.Typing.Mismatch
import RootedC.Proofs.Typing.Identity
import RootedC.Proofs.Token.LongestMatch
import RootedC.Proofs.Typing.Histories
import RootedC.Proofs.Reading.Likeness
import RootedC.Proofs.Reading.Progress
