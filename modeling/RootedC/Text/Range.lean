/-! Closed ranges of code points, the form in which a character property is tabulated. -/
namespace RootedC.Text

/-- First and last code point of a range, both included. -/
abbrev Range := Nat × Nat

def inRanges (ranges : List Range) (c : Char) : Bool :=
  ranges.any fun r => r.1 ≤ c.toNat && c.toNat ≤ r.2

end RootedC.Text
