import SpokenOrder.Text.Numeral

/-!
# Numbers with a point

Texts of floating-point numbers: an optional sign, then `inf`, `infinity` or `nan` in any case, or
digits with at most one point among or around them and an optional exponent. The number is the one
nearest to what the text says.
-/

namespace SpokenOrder.Text

/-- An optional sign: is it a minus, and what follows it? -/
def cutSign : List Char → Bool × List Char
  | '+' :: rest => (false, rest)
  | '-' :: rest => (true, rest)
  | cs => (false, cs)

/-- The number that a text of an optional sign and one or more digits stands for. -/
def readInteger? (cs : List Char) : Option Int :=
  let (negative, digits) := cutSign cs
  if digits.isEmpty || !digits.all Char.isDigit then none
  else some (if negative then -(digitsValue digits : Int) else digitsValue digits)

/-- The exponent at the end of a number. Without one it is 0. -/
def readExponent? : List Char → Option Int
  | [] => some 0
  | c :: rest => if c = 'e' || c = 'E' then readInteger? rest else none

/-- The number `mantissa * 10 ^ exponent`. Far outside the range of floating-point numbers it is
zero or infinite at once. -/
def scaled (mantissa : Nat) (exponent : Int) : Float :=
  let magnitude := exponent + (numeral mantissa).length
  if mantissa = 0 || magnitude < -400 then 0
  else if 400 < magnitude then 1.0 / 0.0
  else if exponent < 0 then Float.ofScientific mantissa true exponent.natAbs
  else Float.ofScientific mantissa false exponent.natAbs

/-- Reads digits, a point and an exponent. -/
def readDigitsAndPoint? (cs : List Char) : Option Float :=
  let whole := cs.takeWhile Char.isDigit
  let rest := cs.dropWhile Char.isDigit
  let (fraction, rest) :=
    match rest with
    | '.' :: rest => (rest.takeWhile Char.isDigit, rest.dropWhile Char.isDigit)
    | _ => ([], rest)
  if whole.isEmpty && fraction.isEmpty then none
  else (readExponent? rest).map fun exponent =>
    scaled (digitsValue (whole ++ fraction)) (exponent - fraction.length)

/-- Reads a number without a sign. -/
def readUnsigned? (cs : List Char) : Option Float :=
  let word := String.ofList (cs.map Char.toLower)
  if word == "inf" || word == "infinity" then some (1.0 / 0.0)
  else if word == "nan" then some (0.0 / 0.0)
  else readDigitsAndPoint? cs

/-- Reads a number. -/
def readFloat? (cs : List Char) : Option Float :=
  let (negative, rest) := cutSign cs
  (readUnsigned? rest).map fun x => if negative then -x else x

end SpokenOrder.Text
