import SpokenOrder.Particulars.Merge
import SpokenOrder.Particulars.Reader
import SpokenOrder.Phrase.Scored
import SpokenOrder.Segment

/-!
# Phrases that build items

A phrase builds a new item (`Menu.newItem?`), changes one (`Menu.modified?`) or puts another in its
place (`Menu.replacement?`). All three read the particulars in the phrase and put the options on the
item that the menu allows. The score is the number of tokens put to use, less those of rejected
options; nothing is built that the menu does not sell.
-/

namespace SpokenOrder

namespace Menu

/-- The new item that a segment describes. -/
def newItem? (menu : Menu) (segment : Segment) : Option (Scored Item) := do
  let pid ← segment.pid?
  let matrix ← menu.matrixFor? pid
  let said := Particulars.readAround menu (some matrix) segment.left segment.right
  let key := matrix.key pid said.attributes
  if menu.catalog.hasKey key then
    let (children, rejected) := menu.mergeParts key [] said.parts
    some ⟨⟨0, key, said.quantity.getD 1, children⟩, 1 + said.used - rejected,
      segment.tokenCount⟩
  else none

/-- The item after the changes that some words ask for. Words that name an attribute change only its
dimension, since the first attribute selected on a dimension decides. Words of which nothing is put
to use change nothing. -/
def modified? (menu : Menu) (item : Item) (words : Run) : Option (Scored Item) := do
  let matrix ← menu.matrixFor? item.key.pid
  let said := Particulars.empty.readLeft menu (some matrix) words
  if said.used = 0 then none
  else
    let key := matrix.key item.key.pid (said.attributes ++ matrix.attributes item.key.index)
    if menu.catalog.hasKey key then
      let (children, rejected) := menu.mergeParts key item.children said.parts
      let score := said.used - rejected
      if score = 0 then none
      else
        some ⟨⟨item.uid, key, said.quantity.getD item.quantity, children⟩, score,
          words.tokenCount⟩
    else none

/-- The children of a replacement, and the number of tokens of rejected parts. If no part was named,
the old children stay, as far as they may go on the new item. -/
def replacementChildren (menu : Menu) (key : Key) (old : List Item) (parts : List Part) :
    List Item × Nat :=
  if parts.isEmpty then (old.filter (menu.composition.isValidChild key ·.key), 0)
  else menu.mergeParts key [] parts

/-- The item that a segment describes, in the place of `target`. What the segment leaves open is
taken from the target: the attributes on dimensions that both have, and the quantity. -/
def replacement? (menu : Menu) (target : Item) (segment : Segment) : Option (Scored Item) := do
  let pid ← segment.pid?
  let matrix ← menu.matrixFor? pid
  let said := Particulars.readAround menu (some matrix) segment.left segment.right
  let key := matrix.key pid (said.attributes ++ menu.attributesOf target.key)
  if menu.catalog.hasKey key then
    let (children, rejected) := menu.replacementChildren key target.children said.parts
    some ⟨⟨target.uid, key, said.quantity.getD target.quantity, children⟩,
      1 + said.used - rejected, segment.tokenCount⟩
  else none

end Menu

end SpokenOrder
