import RootedC.Text.Bytes

/-! Lines of a source text and the line that holds a byte offset. -/
namespace RootedC

/-- The lines of a text, each with the line feed that ends it. -/
def splitLines : List Char → List (List Char)
  | [] => []
  | c :: cs =>
    if c = '\n' then [c] :: splitLines cs
    else match splitLines cs with
      | [] => [[c]]
      | line :: more => (c :: line) :: more

theorem flatten_splitLines (cs : List Char) : (splitLines cs).flatten = cs := by
  induction cs with
  | nil => rfl
  | cons c cs ih =>
    simp only [splitLines]
    split
    · simp [ih]
    · split <;> simp_all

/-- A line by its number, counted from 1, and a byte column inside it. -/
structure Line where
  number : Nat
  text : List Char
  column : Nat
  deriving DecidableEq, Repr

namespace Line

/-- The line of `lines`, numbered from `n`, that holds a byte offset. What lies past the end is
taken for the end of the last line. -/
def seek : Nat → List (List Char) → Nat → Option Line
  | _, [], _ => none
  | n, [line], offset => some ⟨n, line, min offset (Text.byteLength line)⟩
  | n, line :: next :: more, offset =>
    if offset < Text.byteLength line then some ⟨n, line, offset⟩
    else seek (n + 1) (next :: more) (offset - Text.byteLength line)

def at? (source : String) (offset : Nat) : Option Line :=
  seek 1 (splitLines source.toList) offset

end Line

end RootedC
