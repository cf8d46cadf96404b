/-!
# Mixed-radix numbers

A number is written with one digit for each of a list of radices, the first digit varying fastest.
With positive radices, the digits below their radices are in bijection with the numbers below the
product of the radices.
-/

namespace SpokenOrder.MixedRadix

/-- The number with the given digits. -/
def encode : List Nat → List Nat → Nat
  | r :: rs, d :: ds => d + r * encode rs ds
  | _, _ => 0

/-- The digits of a number, one for each radix. -/
def decode : List Nat → Nat → List Nat
  | [], _ => []
  | r :: rs, n => n % r :: decode rs (n / r)

end SpokenOrder.MixedRadix
