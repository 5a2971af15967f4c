import RootedC.Source.Position
import RootedC.Token.Kind

/-! A token is a kind, a text and the span it was read from. -/
namespace RootedC

/-- The value of a string token is the text between its quotes, of any other token the text
itself. -/
structure Token where
  kind : Kind
  value : String
  span : Span
  deriving DecidableEq, Repr

namespace Token

/-- The token that ends every list of tokens. -/
def endOfInput (span : Span) : Token := ⟨.endOfInput, "EOF", span⟩

/-- The token on three lines, for inspection. -/
def describe (t : Token) : String :=
  "Token \x7b\nkind: " ++ t.kind.name ++ ",\nvalue: " ++ t.value ++ "\x7d"

end Token

end RootedC
