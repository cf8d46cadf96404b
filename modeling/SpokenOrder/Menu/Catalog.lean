import SpokenOrder.Menu.Registry

/-!
# The catalogue

Which generic products and options a menu has, and which of their variants are sold. Adding a
generic item puts all variants of its matrix on sale; a variant can be taken off again.
-/

namespace SpokenOrder

/-- A product is ordered by itself, an option only on a product. -/
inductive ItemKind where
  | product
  | option
deriving DecidableEq, Repr

/-- A product or option, whatever its variant. -/
structure Generic where
  pid : Pid
  name : String
  kind : ItemKind
  /-- The matrix that configures it. -/
  matrix : Mid
  /-- The options that it comes with unless asked otherwise. -/
  defaults : List Pid
deriving DecidableEq, Repr

/-- The generic items in the order in which they were added, and the variants on sale. -/
structure Catalog where
  generics : List Generic
  sold : List Key
deriving DecidableEq, Repr

namespace Catalog

/-- Nothing to sell. -/
def empty : Catalog := ⟨[], []⟩

/-- The generic item with the given number. -/
def generic? (c : Catalog) (pid : Pid) : Option Generic := c.generics.find? (·.pid == pid)

/-- Is the variant on sale? -/
def hasKey (c : Catalog) (key : Key) : Bool := c.sold.contains key

/-- Adds a generic item, with all variants of its matrix on sale. -/
def addGeneric (c : Catalog) (g : Generic) (registry : Registry) : Except MenuError Catalog :=
  if (c.generic? g.pid).isSome then .error (.duplicateEntity g.pid)
  else match registry.matrix? g.matrix with
    | none => .error (.unknownMatrix g.matrix)
    | some m =>
      .ok ⟨c.generics ++ [g], c.sold ++ (List.range m.size).map (Key.mk g.pid)⟩

/-- Takes a variant off sale. -/
def exclude (c : Catalog) (key : Key) : Catalog :=
  { c with sold := c.sold.filter (· != key) }

/-- Does the parent come with the option unless asked otherwise? -/
def isDefaultOption (c : Catalog) (parent option : Pid) : Bool :=
  (c.generic? parent).any (·.defaults.contains option)

end Catalog

end SpokenOrder
