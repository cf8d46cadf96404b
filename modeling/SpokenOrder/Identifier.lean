/-!
# Identifiers

A menu numbers what it defines. The abbreviations say what a number stands for; all of them are
natural numbers, and equality is all that is asked of them.
-/

namespace SpokenOrder

/-- The number of a generic product or option, whatever its size or flavour. -/
abbrev Pid := Nat

/-- The number of an attribute, such as `large`. -/
abbrev Aid := Nat

/-- The number of a dimension, such as `size`. -/
abbrev Did := Nat

/-- The number of a matrix of dimensions. -/
abbrev Mid := Nat

/-- The number of a recipe. -/
abbrev Rid := Nat

/-- The number of a unit of measure. -/
abbrev UnitId := Nat

/-- The number of an item in a cart. Zero means that the item has not been placed in one. -/
abbrev Uid := Nat

end SpokenOrder
