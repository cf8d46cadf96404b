import SpokenOrder.Intent.Context
import SpokenOrder.Phrase.Build

/-!
# Modifying

Changes to items in the cart, and other items in their place.
-/

namespace SpokenOrder.Intent

variable {α : Type} [Score α]

/-- Changes the first of the targets that the words can change. -/
def modifyFirst (scene : Scene α) (c : Context) (captures : Captures)
    (targets : List (Scored Item)) (changes : Run) : Option Context :=
  targets.findSome? fun target =>
    (scene.menu.modified? target.value changes).map fun new =>
      replaced c captures new target.score

/-- Changes the item that is named before the changes. -/
def modifyTarget (scene : Scene α) (c : Context) (captures : Captures) : Option Context := do
  let changes ← groupIn? captures 5
  modifyFirst scene c captures (targetsIn scene c captures 3) changes

/-- Changes the item that was added last. -/
def modifyLast (scene : Scene α) (c : Context) (captures : Captures) : Option Context := do
  let changes ← groupIn? captures 3
  let last ← c.cart.last?
  let new ← scene.menu.modified? last changes
  return replaced c captures new 0

/-- The replacement of the first of the targets that a segment can replace, with the scores of the
reference and of the replacement together. -/
def replaceFirst? (menu : Menu) (targets : List (Scored Item)) (segment : Segment) :
    Option (Item × Nat) :=
  targets.findSome? fun target =>
    (menu.replacement? target.value segment).map fun new =>
      (new.value, target.score + new.score)

/-- Puts an item in the place of the one that is named before it. -/
def replaceTarget (scene : Scene α) (c : Context) (captures : Captures) : Option Context := do
  let segment ← (groupIn? captures 5).bind Run.segment?
  let (new, score) ← replaceFirst? scene.menu (targetsIn scene c captures 3) segment
  return c.edit captures (c.cart.replace new) score

/-- Of two segments, the second replaces what the first refers to. -/
def replaceWithin? (scene : Scene α) (cart : Cart) : List Segment → Option (Item × Nat)
  | [old, new] => replaceFirst? scene.menu (scene.targets cart old.span) new
  | _ => none

/-- Puts an item in the place of another, where both are named in one group. -/
def replaceInGroup (scene : Scene α) (c : Context) (captures : Captures) : Option Context := do
  let words ← groupIn? captures 3
  let (new, score) ← bestSegmentation? words (replaceWithin? scene c.cart)
  return c.edit captures (c.cart.replace new) score

/-- Changes the item that the entity of a group refers to, by the other words of the group. -/
def modifyInPlace (scene : Scene α) (c : Context) (captures : Captures) : Option Context := do
  let segment ← (groupIn? captures 3).bind Run.segment?
  modifyFirst scene c captures (scene.targets c.cart segment.entity.span)
    (segment.left ++ segment.right)

/-- The rules that modify something. -/
def modifyRules (scene : Scene α) : List (Rule Context) :=
  [.plain "modify: target"
      [.optional [.token .prologue], .token .modifyItem, .optional [.token .preposition],
        .token (.parts .one), .token .preposition, .token (.parts .zero)]
      fun c captures _ => modifyTarget scene c captures,
    .plain "modify: most recent item"
      [.optional [.token .prologue], .token .modifyItem, .optional [.token .preposition],
        .token (.parts .zero)]
      fun c captures _ => modifyLast scene c captures,
    .plain "modify: replace target"
      [.optional [.token .prologue], .token .modifyItem, .optional [.token .preposition],
        .token (.parts .one), .optional [.token .preposition], .token (.parts .one)]
      fun c captures _ => replaceTarget scene c captures,
    .plain "modify: replace within one group"
      [.optional [.token .prologue], .token .modifyItem, .optional [.token .preposition],
        .token (.parts .several)]
      fun c captures _ => replaceInGroup scene c captures,
    .plain "modify: target in place"
      [.optional [.token .prologue], .token .modifyItem, .optional [.token .preposition],
        .token (.parts .one)]
      fun c captures _ => modifyInPlace scene c captures]

end SpokenOrder.Intent
