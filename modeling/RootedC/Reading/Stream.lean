import RootedC.Diagnostic.Basic
import RootedC.Token.Basic

/-!
A stream of tokens still to be read. Its end is marked by a token of its own that can be read again
and again. Reading a token in front of that mark makes the stream smaller.
-/
namespace RootedC

/-- Text and span of the token that ends a stream. -/
structure EndMark where
  text : String
  span : Span
  deriving DecidableEq, Repr

def EndMark.token (m : EndMark) : Token := ⟨.endOfInput, m.text, m.span⟩

/-- The tokens before the end mark, the mark, and where the last token read ended. -/
structure TokenStream where
  rest : List Token
  mark : EndMark
  lastEnd : Position

namespace TokenStream

def size (s : TokenStream) : Nat := s.rest.length

/-- Splits the end mark off a list of tokens; a list without one gets one at the end of its last
token. -/
def splitMark (start : Position) : List Token → List Token × EndMark
  | [] => ([], ⟨"EOF", .empty start⟩)
  | [t] =>
    if t.kind = .endOfInput then ([], ⟨t.value, t.span⟩) else ([t], ⟨"EOF", .empty t.span.stop⟩)
  | t :: u :: ts =>
    let (rest, mark) := splitMark start (u :: ts)
    (t :: rest, mark)

def ofTokens (tokens : List Token) (file : String) : TokenStream :=
  let start : Position := ⟨0, file⟩
  let (rest, mark) := splitMark start tokens
  ⟨rest, mark, start⟩

def current (s : TokenStream) : Token := s.rest.headD s.mark.token

/-- The stream after the current token; the end mark stays where it is. -/
def advance (s : TokenStream) : TokenStream :=
  { s with rest := s.rest.tail, lastEnd := s.current.span.stop }

def atEnd (s : TokenStream) : Bool := s.current.kind = .endOfInput

def here (s : TokenStream) (cause : Cause) : Diagnostic := ⟨cause, s.current.span.start⟩

/-- The current token is not of the expected kind. -/
def wanted (s : TokenStream) (kind : Kind) : Diagnostic :=
  s.here (.unexpectedThere s.current.value ("expected " ++ kind.name))

/-- Takes the current token, which may be the end mark, if it has the given kind. -/
def demand (s : TokenStream) (kind : Kind) (otherwise : Diagnostic) :
    Except Diagnostic Token × TokenStream :=
  if s.current.kind = kind then (.ok s.current, s.advance) else (.error otherwise, s)

/-- A token in front of the end mark and the smaller stream behind it. -/
structure Taken (s : TokenStream) where
  token : Token
  next : TokenStream
  lt : next.size < s.size

def next? (s : TokenStream) : Option (Taken s) :=
  match s with
  | ⟨[], _, _⟩ => none
  | ⟨t :: rest, mark, _⟩ => some ⟨t, ⟨rest, mark, t.span.stop⟩, by simp [size]⟩

/-- The next token if it has the given kind. -/
def take? (s : TokenStream) (kind : Kind) : Option (Taken s) :=
  s.next?.filter (·.token.kind = kind)

/-! Streams read one after another: each is smaller than the one before, or at least not larger. -/
section Sizes

variable {s s₁ s₂ s₃ : TokenStream}

theorem size_lt_succ (s : TokenStream) : s.size < s.size + 1 := Nat.lt_succ_self _

theorem size_lt_succ_of_lt (h₁ : s₁.size < s.size) : s₁.size < s.size + 1 := Nat.lt_succ_of_lt h₁

theorem size_lt_trans (h₁ : s₁.size < s.size) (h₂ : s₂.size < s₁.size) : s₂.size < s.size :=
  Nat.lt_trans h₂ h₁

theorem size_lt_trans₃ (h₁ : s₁.size < s.size) (h₂ : s₂.size < s₁.size) (h₃ : s₃.size < s₂.size) :
    s₃.size < s.size :=
  size_lt_trans h₁ (size_lt_trans h₂ h₃)

theorem size_lt_succ_trans (h₁ : s₁.size < s.size) (h₂ : s₂.size < s₁.size + 1) :
    s₂.size < s.size + 1 :=
  Nat.lt_trans h₂ (Nat.succ_lt_succ h₁)

theorem size_lt_succ_of_lt₂ (h₁ : s₁.size < s.size) (h₂ : s₂.size < s₁.size) :
    s₂.size < s.size + 1 :=
  size_lt_succ_of_lt (size_lt_trans h₁ h₂)

theorem size_lt_succ_trans₃ (h₁ : s₁.size < s.size) (h₂ : s₂.size < s₁.size)
    (h₃ : s₃.size < s₂.size + 1) : s₃.size < s.size + 1 :=
  size_lt_succ_trans (size_lt_trans h₁ h₂) h₃

end Sizes

end TokenStream

end RootedC
