/-! Spans of time in the largest unit that fits. -/
namespace RootedC.Text

/-- A number of `10 ^ places` parts, as a decimal without zeros at its end. -/
def fixedPoint (n places : Nat) : String :=
  let scale := Nat.pow 10 places
  let digits := (n % scale).repr.toList
  let fraction := List.replicate (places - digits.length) '0' ++ digits
  let kept := (fraction.reverse.dropWhile (· == '0')).reverse
  (n / scale).repr ++ if places = 0 || kept.isEmpty then "" else "." ++ String.ofList kept

def duration (nanoseconds : Nat) : String :=
  if 1000000000 ≤ nanoseconds then fixedPoint nanoseconds 9 ++ "s"
  else if 1000000 ≤ nanoseconds then fixedPoint nanoseconds 6 ++ "ms"
  else if 1000 ≤ nanoseconds then fixedPoint nanoseconds 3 ++ "µs"
  else nanoseconds.repr ++ "ns"

end RootedC.Text
