import SpokenOrder.Text.Numeral

/-!
# Durations

A duration is shown in the largest of seconds, milliseconds, microseconds and nanoseconds of which
it is at least one, with as many decimal places as it needs.
-/

namespace SpokenOrder.Text

/-- The decimal places of `rest / 10 ^ places`, without zeros at the end. -/
def decimalPlaces (rest places : Nat) : List Char :=
  let digits := numeral rest
  let padded := List.replicate (places - digits.length) '0' ++ digits
  (padded.reverse.dropWhile (· == '0')).reverse

/-- The number `amount / 10 ^ places`. -/
def withPlaces (amount places : Nat) : String :=
  let whole := toString (amount / Nat.pow 10 places)
  match decimalPlaces (amount % Nat.pow 10 places) places with
  | [] => whole
  | fraction => whole ++ "." ++ String.ofList fraction

/-- A number of nanoseconds as a text. -/
def duration (nanoseconds : Nat) : String :=
  if Nat.pow 10 9 ≤ nanoseconds then withPlaces nanoseconds 9 ++ "s"
  else if Nat.pow 10 6 ≤ nanoseconds then withPlaces nanoseconds 6 ++ "ms"
  else if Nat.pow 10 3 ≤ nanoseconds then withPlaces nanoseconds 3 ++ "µs"
  else withPlaces nanoseconds 0 ++ "ns"

end SpokenOrder.Text
