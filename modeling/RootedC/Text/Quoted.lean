import RootedC.Text.Extender
import RootedC.Text.Graphic
import RootedC.Text.Ignorable

/-!
Quoted text, as messages show it: between double quotes, with every character that would not be
seen as itself written as an escape.
-/
namespace RootedC.Text

/-- A character that shows as itself, whatever stands before it. -/
def isVisible (c : Char) : Bool := isGraphic c && !isExtender c && !isIgnorable c

/-- The escape by code point: `u` and the hexadecimal digits in braces. -/
def codePointEscape (c : Char) : List Char :=
  ['\\', 'u', '\x7b'] ++ Nat.toDigits 16 c.toNat ++ ['\x7d']

def quoteChar (c : Char) : List Char :=
  match c with
  | '"' => ['\\', '"']
  | '\\' => ['\\', '\\']
  | '\n' => ['\\', 'n']
  | '\r' => ['\\', 'r']
  | '\t' => ['\\', 't']
  | '\x00' => ['\\', '0']
  | _ => if isVisible c then [c] else codePointEscape c

def quote (text : String) : String :=
  String.ofList ('"' :: text.toList.flatMap quoteChar ++ ['"'])

end RootedC.Text
