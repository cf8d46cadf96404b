import SpokenOrder.Bounds
import SpokenOrder.Menu.Error
import SpokenOrder.Menu.MixedRadix
import SpokenOrder.Text.Numeral

/-!
# Dimensions, matrices and keys

A `Dimension` is an ordered list of attributes that exclude one another, one of them the default. A
`Matrix` is an ordered list of dimensions; choosing one attribute on each gives a variant of a
product, and the positions of the chosen attributes are the digits of a mixed-radix number, the
index of the variant:

    size   = small, medium (default), large     varies fastest
    flavor = vanilla (default), chocolate

    small, chocolate    0 + 3 * 1 = 3
    chocolate           1 + 3 * 1 = 4           the size is medium

A `Key` is a generic product with such an index. A `KeyPattern` leaves some dimensions open.

The number of variants is kept up to its bound only, so a matrix with too many of them is taken for
a smaller one. Indices and positions are counted exactly here.
-/

namespace SpokenOrder

/-! ## Dimensions -/

/-- One value on a dimension. -/
structure Attribute where
  id : Aid
  name : String
  isDefault : Bool
deriving DecidableEq, Repr

/-- Attributes that exclude one another, exactly one of them the default. -/
structure Dimension where
  id : Did
  name : String
  attributes : List Attribute
  countP_isDefault : attributes.countP (·.isDefault) = 1
deriving DecidableEq, Repr

namespace Dimension

/-- The dimension with the given attributes, if one of them is the default. -/
def ofAttributes (id : Did) (name : String) (attributes : List Attribute) :
    Except MenuError Dimension :=
  if h : attributes.countP (·.isDefault) = 1 then .ok ⟨id, name, attributes, h⟩
  else .error (.badDefault id (attributes.countP (·.isDefault)))

/-- The number of attributes. It is positive, since one of them is the default. -/
def size (d : Dimension) : Nat := d.attributes.length

/-- The position of the default attribute. -/
def defaultPosition (d : Dimension) : Nat := d.attributes.findIdx (·.isDefault)

/-- The position of an attribute, if it belongs to the dimension. -/
def positionOf? (d : Dimension) (aid : Aid) : Option Nat :=
  d.attributes.findIdx? (·.id == aid)

/-- Does the attribute belong to the dimension? -/
def contains (d : Dimension) (aid : Aid) : Bool := (d.positionOf? aid).isSome

/-- The position that a list of attributes selects on the dimension. The first attribute that
belongs to the dimension decides. -/
def selected? (d : Dimension) (selections : List Aid) : Option Nat :=
  selections.findSome? d.positionOf?

end Dimension

/-! ## Keys -/

/-- A variant of a generic product or option: its number, and the index of the variant. -/
structure Key where
  pid : Pid
  index : Nat
deriving DecidableEq, Repr

/-- The text of a key, such as `9000:4`. -/
def Key.text (key : Key) : String :=
  String.ofList (Text.numeral key.pid ++ ':' :: Text.numeral key.index)

/-- The variants of a generic product whose index is one of `indices`. -/
structure KeyPattern where
  pid : Pid
  indices : List Nat
deriving DecidableEq, Repr

/-- The text of a pattern, such as `9000:(3|4|5)`. -/
def KeyPattern.text (p : KeyPattern) : String :=
  String.ofList (Text.numeral p.pid ++ ":(".toList
    ++ ['|'].intercalate (p.indices.map Text.numeral) ++ [')'])

/-- Is the key one of the variants? -/
def KeyPattern.covers (p : KeyPattern) (key : Key) : Bool :=
  key.pid == p.pid && p.indices.contains key.index

/-! ## Matrices -/

/-- The dimensions that configure a product. -/
structure Matrix where
  id : Mid
  dimensions : List Dimension
deriving DecidableEq, Repr

namespace Matrix

/-- The radices of the indices: the sizes of the dimensions. -/
def radices (m : Matrix) : List Nat := m.dimensions.map Dimension.size

/-- The number of choices of one attribute on each dimension. -/
def combinations (m : Matrix) : Nat := m.radices.foldr (· * ·) 1

/-- The number of variants, which is kept up to the bound of sizes. Indices of variants are the
numbers below it. -/
def size (m : Matrix) : Nat := m.combinations % sizeBound

/-- The position among the dimensions of the one that the attribute belongs to. -/
def dimensionIndex? (m : Matrix) (aid : Aid) : Option Nat :=
  m.dimensions.findIdx? (·.contains aid)

/-- Does the attribute belong to a dimension of the matrix? -/
def configures (m : Matrix) (aid : Aid) : Bool := m.dimensions.any (·.contains aid)

/-- On each dimension, the position that the attributes select. -/
def selected (m : Matrix) (selections : List Aid) : List (Option Nat) :=
  m.dimensions.map (·.selected? selections)

/-- The index of the variant with the selected attributes. A dimension on which none is selected
takes its default, and attributes outside the matrix do not count. -/
def index (m : Matrix) (selections : List Aid) : Nat :=
  MixedRadix.encode m.radices
    (m.dimensions.map fun d => (d.selected? selections).getD d.defaultPosition)

/-- The variant of a product that is configured by the matrix. -/
def key (m : Matrix) (pid : Pid) (selections : List Aid) : Key := ⟨pid, m.index selections⟩

/-- The position on each dimension that an index stands for. -/
def positions (m : Matrix) (index : Nat) : List Nat := MixedRadix.decode m.radices index

/-- The attributes that an index stands for, one on each dimension. -/
def attributes (m : Matrix) (index : Nat) : List Aid :=
  ((m.dimensions.zip (m.positions index)).filterMap fun (d, position) =>
    d.attributes[position]?).map (·.id)

/-- Do the positions agree with the wanted ones, wherever one is wanted? -/
def agrees : List (Option Nat) → List Nat → Bool
  | some wanted :: rest, position :: positions => wanted == position && agrees rest positions
  | none :: rest, _ :: positions => agrees rest positions
  | _, _ => true

/-- The variants with the selected attributes. A dimension on which none is selected is open. -/
def pattern (m : Matrix) (pid : Pid) (selections : List Aid) : KeyPattern :=
  ⟨pid, (List.range m.size).filter fun index =>
    agrees (m.selected selections) (m.positions index)⟩

end Matrix

end SpokenOrder
