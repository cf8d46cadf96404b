import SpokenOrder.Menu.Matrix

/-!
# Items

An ordered `Item` is a tree: a variant, how many of it, and the options that configure it as its
children. Once placed in a cart, an item and each of its descendants has a number of its own; the
number 0 means "not placed yet". Each operation on an item has a partner on a `Forest`, a list of
items, and recursion goes through both.
-/

namespace SpokenOrder

/-- An ordered product or option, with the options that configure it. -/
structure Item where
  /-- The item's number in its cart, or 0 if it has none yet. -/
  uid : Uid
  key : Key
  /-- How many. The quantity 0 records that a default option was removed. -/
  quantity : Nat
  children : List Item
deriving Repr

/-- Items side by side, in order. -/
abbrev Forest := List Item

mutual

/-- Items are the same if all that is noted about them is, and their children are. -/
def Item.decEq : (item other : Item) → Decidable (item = other)
  | ⟨u, key, quantity, children⟩, ⟨v, otherKey, otherQuantity, others⟩ =>
    have := Forest.decEq children others
    decidable_of_iff (u = v ∧ key = otherKey ∧ quantity = otherQuantity ∧ children = others)
      (by rw [Item.mk.injEq])

/-- Forests are the same if their items are, one by one. -/
def Forest.decEq : (forest other : List Item) → Decidable (forest = other)
  | [], [] => isTrue rfl
  | [], _ :: _ | _ :: _, [] => isFalse nofun
  | item :: rest, other :: others =>
    have := item.decEq other
    have := Forest.decEq rest others
    decidable_of_iff (item = other ∧ rest = others) (by rw [List.cons.injEq])

end

instance : DecidableEq Item := Item.decEq

/-- An item that is not placed yet and has no children. -/
def Item.ofKey (key : Key) (quantity : Nat) : Item := ⟨0, key, quantity, []⟩

/-! ## Look-up -/

mutual

/-- The item or descendant with the given number; of several, the first on the way down. -/
def Item.find? (uid : Uid) : Item → Option Item
  | ⟨u, key, quantity, children⟩ =>
    if u = uid then some ⟨u, key, quantity, children⟩ else Forest.find? uid children

/-- The first item or descendant with the given number, from left to right. -/
def Forest.find? (uid : Uid) : Forest → Option Item
  | [] => none
  | item :: rest => (item.find? uid).or (Forest.find? uid rest)

end

/-! ## Numbers -/

mutual

/-- The same item and descendants without their numbers. -/
def Item.detached : Item → Item
  | ⟨_, key, quantity, children⟩ => ⟨0, key, quantity, Forest.detached children⟩

/-- The same items and descendants without their numbers. -/
def Forest.detached : Forest → Forest
  | [] => []
  | item :: rest => item.detached :: Forest.detached rest

end

mutual

/-- Gives the numbers `next`, `next + 1`, … to the item and those of its descendants that have
none, parents before children. Also returns the first number that is still free. -/
def Item.numbered (next : Uid) : Item → Item × Uid
  | ⟨u, key, quantity, children⟩ =>
    let free := if u = 0 then next + 1 else next
    let (children, free) := Forest.numbered free children
    (⟨if u = 0 then next else u, key, quantity, children⟩, free)

/-- Numbers the items from left to right, each with its descendants. -/
def Forest.numbered (next : Uid) : Forest → Forest × Uid
  | [] => ([], next)
  | item :: rest =>
    let (item, free) := item.numbered next
    let (rest, free) := Forest.numbered free rest
    (item :: rest, free)

end

/-! ## Editing -/

mutual

/-- The item without its descendants that have the given number. -/
def Item.without (uid : Uid) : Item → Item
  | ⟨u, key, quantity, children⟩ => ⟨u, key, quantity, Forest.without uid children⟩

/-- The forest without the items and descendants that have the given number. -/
def Forest.without (uid : Uid) : Forest → Forest
  | [] => []
  | item :: rest =>
    if item.uid = uid then Forest.without uid rest
    else item.without uid :: Forest.without uid rest

end

mutual

/-- Puts `new` in the place of the item or descendant that has its number. -/
def Item.replacing (new : Item) : Item → Item
  | ⟨u, key, quantity, children⟩ =>
    if u = new.uid then new else ⟨u, key, quantity, Forest.replacing new children⟩

/-- Puts `new` in the place of each item or descendant that has its number. -/
def Forest.replacing (new : Item) : Forest → Forest
  | [] => []
  | item :: rest => Item.replacing new item :: Forest.replacing new rest

end

end SpokenOrder
