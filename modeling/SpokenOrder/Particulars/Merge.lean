import SpokenOrder.Bounds
import SpokenOrder.Menu.Basic
import SpokenOrder.Particulars.Basic

/-!
# Putting options on an item

`Menu.mergeParts` puts the parts that were named on an item, as far as the menu allows it. A part
that is accepted in no way is rejected, and the tokens that name it are counted.
-/

namespace SpokenOrder

/-- The state of a merge. -/
structure Merge where
  /-- The options on the item so far. -/
  children : List Item
  /-- Which exclusion sets have let an option through. -/
  gate : Admission
  /-- The tokens of the parts that were rejected so far. -/
  rejected : Nat
deriving Repr

namespace Menu

/-- The children that a part stands for on a parent. Variants that are not sold are left out. -/
def candidates (menu : Menu) (parent : Key) : Part → List Item
  | .option pid attributes quantity _ =>
    (((menu.keyFor? pid attributes).filter menu.catalog.hasKey).map
      (Item.ofKey · quantity)).toList
  | .recipe rid _ => ((menu.cookbook.recipeFor? rid parent).map menu.recipeItems).getD []

/-- Puts a child among others: on one of the same variant, by adding to its quantity, which counts
from 0 again when it reaches its bound; else in the place of the first that it conflicts with; else
behind all of them. -/
def putChild (menu : Menu) (parent : Key) (children : List Item) (child : Item) : List Item :=
  match children.findIdx? (·.key == child.key) with
  | some i => children.modify i fun c =>
    { c with quantity := (c.quantity + child.quantity) % quantityBound }
  | none =>
    match children.findIdx? fun c => menu.composition.conflicts parent c.key child.key with
    | some i => children.set i child
    | none => children ++ [child]

/-- Offers one child. It is accepted if it may go on the parent and no child offered before has
used up its exclusion set. -/
def offerChild (menu : Menu) (parent : Key) (m : Merge) (child : Item) : Merge × Bool :=
  if menu.composition.isValidChild parent child.key then
    let (passes, gate) := m.gate.offer child.key.pid
    if passes then
      ({ m with children := menu.putChild parent m.children child, gate }, true)
    else ({ m with gate }, false)
  else (m, false)

/-- Offers several children in turn, and says whether any of them was accepted. -/
def offerChildren (menu : Menu) (parent : Key) (m : Merge) : List Item → Merge × Bool
  | [] => (m, false)
  | child :: rest =>
    let (m, accepted) := menu.offerChild parent m child
    let (m, more) := menu.offerChildren parent m rest
    (m, accepted || more)

/-- Offers what a part stands for. -/
def offerPart (menu : Menu) (parent : Key) (m : Merge) (part : Part) : Merge :=
  let (m, accepted) := menu.offerChildren parent m (menu.candidates parent part)
  if accepted then m else { m with rejected := m.rejected + part.tokens }

/-- Puts parts on a parent that has the given children: the children then, and the number of tokens
of rejected parts. -/
def mergeParts (menu : Menu) (parent : Key) (children : List Item) (parts : List Part) :
    List Item × Nat :=
  let m := parts.foldl (menu.offerPart parent) ⟨children, menu.composition.admission parent, 0⟩
  (m.children, m.rejected)

end Menu

end SpokenOrder
