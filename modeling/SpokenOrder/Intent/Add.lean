import SpokenOrder.Intent.Context
import SpokenOrder.Phrase.Build

/-!
# Adding

New items, and options for items that are already in the cart.
-/

namespace SpokenOrder.Intent

variable {α : Type} [Score α]

/-- Puts options on the item that is named after them: on the best reference that takes them. -/
def addOntoTarget (scene : Scene α) (c : Context) (captures : Captures) : Option Context := do
  let options ← groupIn? captures 2
  (targetsIn scene c captures 4).findSome? fun target =>
    (scene.menu.modified? target.value options).map fun new =>
      replaced c captures new target.score

/-- Puts options on the item that was added last. -/
def addOntoLast (scene : Scene α) (c : Context) (captures : Captures) : Option Context := do
  let options ← groupIn? captures 2
  let last ← c.cart.last?
  let new ← scene.menu.modified? last options
  return replaced c captures new 0

/-- The items that can be built from the segments, with their scores added up; none, if no segment
builds one. -/
def newItems? (menu : Menu) (segments : List Segment) : Option (List Item × Nat) :=
  match segments.filterMap menu.newItem? with
  | [] => none
  | built => some (built.map (·.value), built.foldr (·.score + ·) 0)

/-- Adds the items of the best segmentation. -/
def addNewItems (scene : Scene α) (c : Context) (captures : Captures) : Option Context := do
  let words ← groupIn? captures 2
  let (items, score) ← bestSegmentation? words (newItems? scene.menu)
  return c.edit captures (c.cart.addAll items) score

/-- The rules that add something. -/
def addRules (scene : Scene α) : List (Rule Context) :=
  [.plain "add: move options onto target"
      [.optional [.token .prologue], .optional [.token .addToOrder], .token (.parts .zero),
        .token .preposition, .token (.parts .one)]
      fun c captures _ => addOntoTarget scene c captures,
    .plain "add: options onto implicit target"
      [.optional [.token .prologue], .optional [.token .addToOrder], .token (.parts .zero),
        .token .preposition]
      fun c captures _ => addOntoLast scene c captures,
    .plain "add: new items"
      [.optional [.token .prologue], .optional [.token .addToOrder],
        .choose [.token (.parts .one), .token (.parts .several)]]
      fun c captures _ => addNewItems scene c captures,
    .plain "add: options onto last item"
      [.optional [.token .prologue], .optional [.token .addToOrder], .token (.parts .zero)]
      fun c captures _ => addOntoLast scene c captures]

end SpokenOrder.Intent
