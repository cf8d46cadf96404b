import SpokenOrder.Menu.KeyMatcher

/-!
# Recipes

A recipe is a named bundle of options, such as "the works", for a set of parents.
-/

namespace SpokenOrder

/-- One option of a recipe. -/
structure RecipeOption where
  pid : Pid
  attributes : List Aid
  quantity : Nat
deriving DecidableEq, Repr

/-- A named bundle of options. -/
structure Recipe where
  rid : Rid
  name : String
  /-- The parents that the recipe is for. -/
  parents : KeyMatcher
  options : List RecipeOption
deriving DecidableEq, Repr

/-- The recipes of a menu, in the order in which they were added. -/
structure Cookbook where
  recipes : List Recipe
deriving DecidableEq, Repr

namespace Cookbook

/-- No recipe. -/
def empty : Cookbook := ⟨[]⟩

/-- The recipe with the given number. -/
def recipe? (b : Cookbook) (rid : Rid) : Option Recipe := b.recipes.find? (·.rid == rid)

/-- The recipe with the given number, if it is for the parent. -/
def recipeFor? (b : Cookbook) (rid : Rid) (parent : Key) : Option Recipe :=
  (b.recipe? rid).filter (·.parents.covers parent)

/-- Adds a recipe for the parents that an expression stands for. -/
def addRecipe (b : Cookbook) (rid : Rid) (name parents : String) (options : List RecipeOption) :
    Except MenuError Cookbook :=
  if (b.recipe? rid).isSome then .error (.duplicateRecipe rid)
  else (KeyMatcher.parse parents).map fun m => ⟨b.recipes ++ [⟨rid, name, m, options⟩]⟩

end Cookbook

end SpokenOrder
