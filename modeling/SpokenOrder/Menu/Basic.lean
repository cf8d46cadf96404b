import SpokenOrder.Item
import SpokenOrder.Menu.Catalog
import SpokenOrder.Menu.Composition
import SpokenOrder.Menu.Cookbook

/-!
# The menu

Everything that an order is understood against: how products are configured, what is sold, what may
go on what, and the recipes.
-/

namespace SpokenOrder

/-- The knowledge that an order is understood against. -/
structure Menu where
  registry : Registry
  catalog : Catalog
  composition : Composition
  cookbook : Cookbook
deriving DecidableEq, Repr

namespace Menu

/-- A menu with nothing on it. -/
def empty : Menu := ⟨.empty, .empty, .empty, .empty⟩

/-! ## Variants -/

/-- The matrix that configures a generic item. -/
def matrixFor? (menu : Menu) (pid : Pid) : Option Matrix :=
  (menu.catalog.generic? pid).bind fun g => menu.registry.matrix? g.matrix

/-- The variant of a generic item with the given attributes. A dimension without one takes its
default, and attributes outside the item's matrix do not count. -/
def keyFor? (menu : Menu) (pid : Pid) (attributes : List Aid) : Option Key :=
  (menu.matrixFor? pid).map (·.key pid attributes)

/-- The variant of a generic item that has no attribute but defaults. -/
def defaultKey? (menu : Menu) (pid : Pid) : Option Key := menu.keyFor? pid []

/-- The variants of a generic item with the given attributes. A dimension without one is open. -/
def patternFor? (menu : Menu) (pid : Pid) (attributes : List Aid) : Option KeyPattern :=
  (menu.matrixFor? pid).map (·.pattern pid attributes)

/-- The attributes of a variant. -/
def attributesOf (menu : Menu) (key : Key) : List Aid :=
  ((menu.matrixFor? key.pid).map (·.attributes key.index)).getD []

/-! ## Names -/

/-- The name of a generic item. -/
def name (menu : Menu) (pid : Pid) : String :=
  ((menu.catalog.generic? pid).map (·.name)).getD "?"

/-- The attributes that configure anything on the menu, each once, in the order of the generic items
and of their dimensions. -/
def attributes (menu : Menu) : List Attribute :=
  let matrices := menu.catalog.generics.filterMap fun g => menu.registry.matrix? g.matrix
  let dimensions := matrices.flatMap (·.dimensions)
  (dimensions.flatMap (·.attributes)).eraseDupsBy fun a b => a.id == b.id

/-! ## Recipes -/

/-- The children that a recipe stands for. Options that are not sold are left out. -/
def recipeItems (menu : Menu) (recipe : Recipe) : List Item :=
  recipe.options.filterMap fun option =>
    (menu.keyFor? option.pid option.attributes).bind fun key =>
      if menu.catalog.hasKey key then some (Item.ofKey key option.quantity) else none

/-! ## Descriptions -/

/-- The names of those attributes of a variant that are not defaults. -/
def modifiers (menu : Menu) (key : Key) : List String :=
  match menu.matrixFor? key.pid with
  | none => []
  | some m =>
    (m.dimensions.zip (m.positions key.index)).filterMap fun (d, position) =>
      if position = d.defaultPosition then none else (d.attributes[position]?).map (·.name)

/-- How many of which variant, as in `2 large latte`. One is not mentioned. -/
def headline (menu : Menu) (key : Key) (quantity : Nat) : String :=
  let count := if quantity = 1 then [] else [toString quantity]
  " ".intercalate (count ++ menu.modifiers key ++ [menu.name key.pid])

mutual

/-- An item in words, with its children in brackets, as in `2 large latte (no milk)`. -/
def describe (menu : Menu) : Item → String
  | ⟨_, key, quantity, []⟩ => menu.headline key quantity
  | ⟨_, key, quantity, child :: rest⟩ =>
    menu.headline key quantity
      ++ " (" ++ ", ".intercalate (menu.describeChildren (child :: rest)) ++ ")"

/-- Each child in words. One of quantity 0 is a removed default. -/
def describeChildren (menu : Menu) : List Item → List String
  | [] => []
  | child :: rest =>
    (if child.quantity = 0 then "no " ++ menu.name child.key.pid else menu.describe child)
      :: menu.describeChildren rest

end

end Menu

end SpokenOrder
