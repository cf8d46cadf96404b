/-!
# Bounds

Numbers are kept in machine registers: sizes, positions and indices in 64 bits, quantities in 32.
What a sum or a product has above the bound of its register is lost. Sums of what people say, and of
what fits into a lattice or a matrix that can be written, stay below the bounds; where a statement
depends on this, it says so.
-/

namespace SpokenOrder

/-- Sizes, lengths, positions and indices are kept below it. -/
def sizeBound : Nat := Nat.pow 2 64

/-- Quantities are kept below it. -/
def quantityBound : Nat := Nat.pow 2 32

end SpokenOrder
