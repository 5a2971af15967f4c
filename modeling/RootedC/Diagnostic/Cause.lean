import RootedC.Text.Quoted

/-!
What can be wrong with a program. Each cause has a name, a category, a sentence for logs and, for
most of them, a tip for the reader.
-/
namespace RootedC

/-- The families of failures. -/
inductive Category where
  | lexical | grammatical | typing | unsupported
  deriving DecidableEq, Repr

def Category.name : Category → String
  | .lexical => "LexError"
  | .grammatical => "ParseError"
  | .typing => "TypeError"
  | .unsupported => "UnsupportedFeature"

inductive Cause where
  | unrecognised (text : String)
  | unclosedString
  | lineBreakInString
  | badEscape (text : String)
  | unexpected (token : String)
  | unexpectedThere (token hint : String)
  | badNumber (token : String)
  | secondEntry
  | missingSignature (name : String)
  | undeclared (name : String)
  | tooManyArguments (expected received : Nat)
  | tooFewArguments (expected received : Nat)
  | argumentMismatch (expected received : String)
  | mismatch (expected received : String)
  | badOperand (operator received : String)
  | badOperands (operator received : String)
  | ambiguousParameter (name : String)
  | notCallable (received : String)
  | alreadyDeclared (name : String)
  | builtinRedefined (name : String)
  | repeatedParameter (name : String)
  | noActivation
  | unknownType (name : String)
  | unsupported (feature : String)
  deriving DecidableEq, Repr

namespace Cause

def category : Cause → Category
  | unrecognised _ | unclosedString | lineBreakInString | badEscape _ => .lexical
  | unexpected _ | unexpectedThere _ _ | badNumber _ | secondEntry => .grammatical
  | unknownType _ | unsupported _ => .unsupported
  | _ => .typing

def name : Cause → String
  | unrecognised _ => "UnrecognisedToken"
  | unclosedString => "UnterminatedString"
  | lineBreakInString => "NewlineInString"
  | badEscape _ => "InvalidEscape"
  | unexpected _ => "UnexpectedToken"
  | unexpectedThere _ _ => "UnexpectedTokenDetailed"
  | badNumber _ => "NumberParseError"
  | secondEntry => "DuplicateEntry"
  | missingSignature _ => "MissingSignature"
  | undeclared _ => "VariableNotDeclared"
  | tooManyArguments _ _ => "UnexpectedArguments"
  | tooFewArguments _ _ => "MissingArguments"
  | argumentMismatch _ _ => "ArgumentTypeMatchError"
  | mismatch _ _ => "TypeMatchError"
  | badOperand _ _ => "InvalidUnaryOperand"
  | badOperands _ _ => "InvalidBinaryOperand"
  | ambiguousParameter _ => "AmbiguousType"
  | notCallable _ => "NotCallable"
  | alreadyDeclared _ => "FunctionAlreadyDeclared"
  | builtinRedefined _ => "BuiltinRedefinition"
  | repeatedParameter _ => "DuplicateParameter"
  | noActivation => "NoActivationFrame"
  | unknownType _ => "UnknownType"
  | unsupported _ => "UnsupportedFeature"

open Text (quote)

/-- The cause in one sentence. Texts taken from the program are quoted, feature and type names
are not. -/
def sentence : Cause → String
  | unrecognised text => "unrecognised token: " ++ quote text
  | unclosedString => "unterminated string literal"
  | lineBreakInString => "newline in string literal"
  | badEscape text => "invalid escape sequence " ++ quote text
  | unexpected token => "unexpected token: " ++ quote token
  | unexpectedThere token hint => "unexpected token (" ++ quote hint ++ "): " ++ quote token
  | badNumber token => "error parsing number: " ++ quote token
  | secondEntry => "duplicate entry block"
  | missingSignature name => "definition " ++ quote name ++ " has no explicit signature"
  | undeclared name => "variable " ++ quote name ++ " not declared"
  | tooManyArguments expected received =>
    "unexpected arguments: expected " ++ expected.repr ++ ", received " ++ received.repr
  | tooFewArguments expected received =>
    "missing arguments: expected " ++ expected.repr ++ ", received " ++ received.repr
  | argumentMismatch expected received =>
    "argument types do not match: expected " ++ quote expected ++ ", received " ++ quote received
  | mismatch expected received =>
    "types do not match: expected " ++ quote expected ++ ", received " ++ quote received
  | badOperand operator received =>
    "invalid operand for unary " ++ quote operator ++ ": " ++ quote received
  | badOperands operator received =>
    "invalid operands for binary " ++ quote operator ++ ": " ++ quote received
  | ambiguousParameter name => "ambiguous type for parameter " ++ quote name
  | notCallable received => "value of type " ++ quote received ++ " is not callable"
  | alreadyDeclared name => "procedure " ++ quote name ++ " already declared"
  | builtinRedefined name => "builtin " ++ quote name ++ " cannot be redefined"
  | repeatedParameter name => "parameter " ++ quote name ++ " declared twice"
  | noActivation => "module scope has no activation frame for root slots"
  | unknownType name => "unknown type " ++ name ++ " found"
  | unsupported feature => "unsupported feature: " ++ feature

def ticked (text : String) : String := "`" ++ text ++ "`"

/-- Advice for the reader of a report, where there is any. -/
def tip? : Cause → Option String
  | unrecognised _ => none
  | unclosedString => some "String literal is missing its closing quote"
  | lineBreakInString => some "String literals cannot span lines, use `\\n` instead"
  | badEscape text =>
    some ("Unknown escape " ++ ticked text ++
      ", expected one of `\\n`, `\\t`, `\\r`, `\\\\`, `\\\"`")
  | unexpected token => some ("Unexpected token: " ++ ticked token)
  | unexpectedThere token hint => some ("Unexpected token: " ++ ticked token ++ ", " ++ hint)
  | badNumber token => some ("Invalid number: " ++ ticked token ++ ", is it above the i32 limit?")
  | secondEntry => some "A module can only have one `entry` block"
  | missingSignature name =>
    some ("Top-level definition " ++ ticked name ++ " needs explicit parameter and result types")
  | undeclared name => some ("Variable " ++ ticked name ++ " not declared")
  | tooManyArguments expected received | tooFewArguments expected received =>
    some ("Expected " ++ expected.repr ++ " arguments, received " ++ received.repr)
  | argumentMismatch expected received =>
    some ("Expected argument type " ++ ticked expected ++ ", received " ++ ticked received)
  | mismatch expected received =>
    some ("Expected type " ++ ticked expected ++ ", received " ++ ticked received)
  | badOperand operator received =>
    some ("Operator " ++ ticked operator ++ " cannot be applied to " ++ ticked received)
  | badOperands operator received =>
    if received = "str" then
      some ("Operator " ++ ticked operator ++
        " cannot be applied to `str`, use the `str_*` builtins")
    else some ("Operator " ++ ticked operator ++ " cannot be applied to " ++ ticked received)
  | ambiguousParameter name =>
    some ("Type of parameter " ++ ticked name ++ " cannot be inferred, add an annotation")
  | notCallable received => some ("Value of type " ++ ticked received ++ " is not callable")
  | alreadyDeclared name => some ("Procedure " ++ ticked name ++ " already declared")
  | builtinRedefined name =>
    some (ticked name ++ " is a builtin and cannot be redefined at the top level")
  | repeatedParameter name => some ("Parameter " ++ ticked name ++ " declared twice")
  | noActivation => none
  | unknownType name =>
    some ("Unknown type " ++ ticked name ++ " found, user-defined types are not supported")
  | unsupported feature => some ("Ajisai does not support " ++ feature)

/-! What the language leaves out. -/

def firstClassProcedure : Cause := unsupported "first-class procedure values"

def capturedVariable : Cause := unsupported "captured variables"

def collectionType : Cause := unsupported "collection types"

def mutableGlobal : Cause := unsupported "module-level mutable variables"

def computedGlobal : Cause := unsupported "non-constant module-level initializers"

def changedDeclaration : Cause := unsupported "redeclaring a let binding with a different type"

def unresolvedType : Cause := unsupported "unresolved types in generated code"

end Cause

end RootedC
