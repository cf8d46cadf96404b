/-!
# Scored values

What a phrase was read as, with two numbers that decide between readings.
-/

namespace SpokenOrder

/-- A value with the number of tokens put to use for it, and the number of tokens looked at. -/
structure Scored (α : Type) where
  value : α
  score : Nat
  tokenCount : Nat
deriving Repr

end SpokenOrder
