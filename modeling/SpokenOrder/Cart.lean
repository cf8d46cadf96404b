import SpokenOrder.Item

/-!
# The cart

What has been ordered so far: items in the order in which they were added, and the next number to
give out. Numbers are given out once, so an item that was removed never lends its number to another.
-/

namespace SpokenOrder

/-- The items ordered so far. -/
structure Cart where
  items : List Item
  /-- The number for the next item that is placed. -/
  nextUid : Uid
deriving DecidableEq, Repr

namespace Cart

/-- The cart of a new customer. Numbers start at 1. -/
def empty : Cart := ⟨[], 1⟩

/-- Puts an item behind the others, with numbers for itself and its descendants. -/
def add (c : Cart) (item : Item) : Cart :=
  let (placed, next) := item.numbered c.nextUid
  ⟨c.items ++ [placed], next⟩

/-- Puts several items behind the others, in their order. -/
def addAll (c : Cart) (items : List Item) : Cart := items.foldl add c

/-- Drops the item or descendant with the given number. -/
def remove (c : Cart) (uid : Uid) : Cart := { c with items := Forest.without uid c.items }

/-- Drops the items and descendants with the given numbers. -/
def removeAll (c : Cart) (uids : List Uid) : Cart := uids.foldl remove c

/-- Puts an item where the one with its number is. New descendants get numbers first. -/
def replace (c : Cart) (item : Item) : Cart :=
  let (placed, next) := item.numbered c.nextUid
  ⟨Forest.replacing placed c.items, next⟩

/-- The item or descendant with the given number. -/
def find? (c : Cart) (uid : Uid) : Option Item := Forest.find? uid c.items

/-- The items that are variants of the pattern; descendants do not count. -/
def findByPattern (c : Cart) (p : KeyPattern) : List Item := c.items.filter (p.covers ·.key)

/-- The item that was added last. -/
def last? (c : Cart) : Option Item := c.items.getLast?

/-- The position of an item; later items are more recent. -/
def recency? (c : Cart) (uid : Uid) : Option Nat := c.items.findIdx? (·.uid == uid)

end Cart

end SpokenOrder
