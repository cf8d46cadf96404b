import SpokenOrder.Intent.Context

/-!
# Removing

Items, and options of items. A default option cannot just be dropped, or the item would come with
it; it stays among the children with the quantity 0.
-/

namespace SpokenOrder

/-- The item without one of its options. A default option is recorded as removed; anything else is
dropped. -/
def Menu.withoutOption (menu : Menu) (parent option : Item) : Item :=
  if menu.catalog.isDefaultOption parent.key.pid option.key.pid then
    match parent.children.findIdx? fun c => option.uid != 0 && c.uid == option.uid with
    | some i =>
      { parent with children := parent.children.modify i fun c => { c with quantity := 0 } }
    | none => { parent with children := parent.children ++ [{ option with quantity := 0 }] }
  else { parent with children := parent.children.filter (·.uid != option.uid) }

namespace Intent

variable {α : Type} [Score α]

/-- The numbers of the items that the segments refer to, each segment to another item. What a
segment finds is added to `found` with the score. -/
def removals (scene : Scene α) (cart : Cart) (found : List Uid × Nat) :
    List Segment → List Uid × Nat
  | [] => found
  | segment :: rest =>
    match (scene.targets cart segment.span).find? fun t => !found.1.contains t.value.uid with
    | none => removals scene cart found rest
    | some t => removals scene cart (found.1 ++ [t.value.uid], found.2 + t.score) rest

/-- The items that the segments refer to, if they refer to any. -/
def removals? (scene : Scene α) (cart : Cart) (segments : List Segment) :
    Option (List Uid × Nat) :=
  match removals scene cart ([], 0) segments with
  | ([], _) => none
  | found => some found

/-- Removes the items of the best segmentation. -/
def removeItems (scene : Scene α) (c : Context) (captures : Captures) : Option Context := do
  let words ← groupIn? captures 2
  let (uids, score) ← bestSegmentation? words (removals? scene c.cart)
  return c.edit captures (c.cart.removeAll uids) score

/-- Removes from an item the option that a span refers to best, with what was understood beside
that. -/
def removeOption (scene : Scene α) (c : Context) (captures : Captures) (span : Span) (score : Nat)
    (parent : Item) : Option Context :=
  (scene.optionTargets parent span).head?.map fun option =>
    c.edit captures (c.cart.replace (scene.menu.withoutOption parent option.value))
      (score + option.score)

/-- Removes an option from the item that is named after it. -/
def removeOptionFromTarget (scene : Scene α) (c : Context) (captures : Captures) :
    Option Context := do
  let span ← spanIn? captures 2
  (targetsIn scene c captures 4).findSome? fun target =>
    removeOption scene c captures span target.score target.value

/-- Removes an option from the latest item that has it. -/
def removeOptionFromLatest (scene : Scene α) (c : Context) (captures : Captures) :
    Option Context := do
  let span ← spanIn? captures 2
  c.cart.items.reverse.findSome? (removeOption scene c captures span 0)

/-- The rules that remove something. -/
def removeRules (scene : Scene α) : List (Rule Context) :=
  [.plain "remove: items"
      [.optional [.token .prologue], .token .removeItem,
        .choose [.token (.parts .one), .token (.parts .several)]]
      fun c captures _ => removeItems scene c captures,
    .plain "remove: option from target"
      [.optional [.token .prologue], .token .removeItem, .token (.parts .zero),
        .token .preposition, .token (.parts .one)]
      fun c captures _ => removeOptionFromTarget scene c captures,
    .plain "remove: option, most recent item"
      [.optional [.token .prologue], .token .removeItem, .token (.parts .zero)]
      fun c captures _ => removeOptionFromLatest scene c captures]

end Intent

end SpokenOrder
