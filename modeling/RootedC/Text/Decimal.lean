/-! Decimal numerals and the 32-bit signed integers. -/
namespace RootedC.Text

/-- The value of a list of decimal digits. -/
def digitsValue (cs : List Char) : Nat := cs.foldl (fun n c => 10 * n + (c.toNat - '0'.toNat)) 0

def natural? (cs : List Char) : Option Nat :=
  if cs ≠ [] ∧ cs.all Char.isDigit then some (digitsValue cs) else none

/-- A signed numeral: digits, with at most one sign in front. -/
def integer? : List Char → Option Int
  | '-' :: cs => (natural? cs).map fun n => -(n : Int)
  | '+' :: cs => (natural? cs).map Int.ofNat
  | cs => (natural? cs).map Int.ofNat

def isInt32 (n : Int) : Bool := -2147483648 ≤ n && n < 2147483648

/-- The numeral of a 32-bit signed integer. -/
def int32? (text : String) : Option Int := (integer? text.toList).filter isInt32

end RootedC.Text
