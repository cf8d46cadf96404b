import SpokenOrder.Menu.Matrix

/-!
# The dimensions and matrices of a menu

A `Registry` holds the dimensions and matrices in the order in which they were added. Numbers of
dimensions are distinct, numbers of matrices are distinct, and no attribute is in two dimensions;
an addition that would break this is refused.
-/

namespace SpokenOrder

/-- The dimensions and matrices of a menu. -/
structure Registry where
  dimensions : List Dimension
  matrices : List Matrix
deriving DecidableEq, Repr

namespace Registry

/-- No dimension and no matrix. -/
def empty : Registry := ⟨[], []⟩

/-- The dimension with the given number. -/
def dimension? (r : Registry) (did : Did) : Option Dimension :=
  r.dimensions.find? (·.id == did)

/-- The matrix with the given number. -/
def matrix? (r : Registry) (mid : Mid) : Option Matrix := r.matrices.find? (·.id == mid)

/-- The dimension that an attribute belongs to. -/
def dimensionOf? (r : Registry) (aid : Aid) : Option Did :=
  (r.dimensions.find? (·.contains aid)).map (·.id)

/-- An attribute of `d` that already belongs to a dimension, with that dimension. -/
def taken? (r : Registry) (d : Dimension) : Option (Aid × Did) :=
  d.attributes.findSome? fun a => (r.dimensionOf? a.id).map (a.id, ·)

/-- Adds a dimension. -/
def addDimension (r : Registry) (d : Dimension) : Except MenuError Registry :=
  if (r.dimension? d.id).isSome then .error (.duplicateDimension d.id)
  else match r.taken? d with
    | some (aid, existing) => .error (.duplicateAttribute aid existing)
    | none => .ok { r with dimensions := r.dimensions ++ [d] }

/-- The dimensions with the given numbers, or the first number that has none. -/
def dimensionsOf (r : Registry) : List Did → Except MenuError (List Dimension)
  | [] => .ok []
  | did :: rest =>
    match r.dimension? did with
    | none => .error (.unknownDimension did)
    | some d => (r.dimensionsOf rest).map (d :: ·)

/-- Adds a matrix over dimensions that are already there. -/
def addMatrix (r : Registry) (mid : Mid) (dimensions : List Did) : Except MenuError Registry :=
  if (r.matrix? mid).isSome then .error (.duplicateMatrix mid)
  else (r.dimensionsOf dimensions).map fun ds => { r with matrices := r.matrices ++ [⟨mid, ds⟩] }

end Registry

end SpokenOrder
