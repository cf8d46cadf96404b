/-!
# Decimal numerals

Texts of decimal digits, and the numbers that they stand for. Leading zeros change nothing.
-/

namespace SpokenOrder.Text

/-- The decimal digits of a number, without leading zeros. -/
def numeral (n : Nat) : List Char := Nat.toDigits 10 n

/-- The number that a text of digits stands for. -/
def digitsValue (cs : List Char) : Nat := cs.foldl (fun n c => 10 * n + (c.toNat - '0'.toNat)) 0

/-- Reads a text of one or more digits that stands for a number below `bound`. -/
def readDigits? (bound : Nat) (cs : List Char) : Option Nat :=
  if !cs.isEmpty && cs.all Char.isDigit && digitsValue cs < bound then some (digitsValue cs)
  else none

/-- Reads digits as `readDigits?` does, after a plus sign if there is one. -/
def readNumeral? (bound : Nat) : List Char → Option Nat
  | '+' :: cs => readDigits? bound cs
  | cs => readDigits? bound cs

end SpokenOrder.Text
