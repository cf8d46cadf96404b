import SpokenOrder.Menu.Basic

/-!
# Writing a menu

A menu is written by a sequence of `Entry`s. Each is accepted, or refused with the reason; a refused
entry leaves the menu as it was.
-/

namespace SpokenOrder

/-- One addition to a menu. -/
inductive Entry where
  | dimension (id : Did) (name : String) (attributes : List Attribute)
  | matrix (id : Mid) (dimensions : List Did)
  | generic (g : Generic)
  /-- Takes a variant off sale. -/
  | exclude (key : Key)
  /-- Lets the options go on the parents. -/
  | children (parents : String) (options : List Pid)
  /-- Makes the options exclude one another on the parents. -/
  | exclusion (parents : String) (options : List Pid)
  | recipe (id : Rid) (name parents : String) (options : List RecipeOption)
deriving DecidableEq, Repr

namespace Menu

/-- The menu after one entry, or why the entry is refused. -/
def write (menu : Menu) : Entry → Except MenuError Menu
  | .dimension id name attributes => do
    let d ← Dimension.ofAttributes id name attributes
    let registry ← menu.registry.addDimension d
    return { menu with registry }
  | .matrix id dimensions => do
    let registry ← menu.registry.addMatrix id dimensions
    return { menu with registry }
  | .generic g => do
    let catalog ← menu.catalog.addGeneric g menu.registry
    return { menu with catalog }
  | .exclude key => return { menu with catalog := menu.catalog.exclude key }
  | .children parents options => do
    let composition ← menu.composition.allow parents options
    return { menu with composition }
  | .exclusion parents options => do
    let composition ← menu.composition.addExclusion parents options
    return { menu with composition }
  | .recipe id name parents options => do
    let cookbook ← menu.cookbook.addRecipe id name parents options
    return { menu with cookbook }

/-- The menu after all entries, or why the first refused one is refused. -/
def writeAll (menu : Menu) (entries : List Entry) : Except MenuError Menu :=
  entries.foldlM write menu

end Menu

end SpokenOrder
