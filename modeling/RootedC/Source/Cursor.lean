import RootedC.Source.Position
import RootedC.Text.Bytes

/-! A cursor moves through the text of one file by bytes. -/
namespace RootedC

structure Cursor where
  text : String
  file : String
  offset : Nat

namespace Cursor

/-- The file name of a text that was given without one. -/
def unnamed : String := "shell"

def ofText (text : String) (file : Option String) : Cursor := ⟨text, file.getD unnamed, 0⟩

def advance (c : Cursor) (n : Nat) : Cursor := { c with offset := c.offset + n }

def atEnd (c : Cursor) : Bool := Text.byteLength c.text.toList ≤ c.offset

/-- The text from the cursor on. -/
def rest (c : Cursor) : List Char := Text.dropBytes c.offset c.text.toList

def peek? (c : Cursor) : Option Char := c.rest.head?

def position (c : Cursor) (n : Nat) : Position := .ofByte c.file n

/-- The `length` bytes from the cursor on. -/
def span (c : Cursor) (length : Nat) : Span := .ofBytes c.file c.offset length

end Cursor

end RootedC
