import SpokenOrder.Proofs.Composition.Legal

/-!
# What is on sale

Each builder asks whether the variant that it makes is on sale, and a merge offers only options that
are. What stays of an item that is changed or replaced was put on it in the same way. So nothing is
ordered that is not on sale (`Menu.hasKey_of_hears`). Only the record of a removed default, whose
quantity is 0, can have a variant that is not.
-/

namespace SpokenOrder.Menu

variable {menu : Menu}

/-- A new item is on sale. -/
theorem hasKey_of_newItem? {segment : Segment} {built : Scored Item}
    (h : menu.newItem? segment = some built) : menu.catalog.hasKey built.value.key = true := by
  obtain ⟨pid, matrix, said, key, -, -, -, -, hsold, rfl⟩ := newItem?_eq_some h
  exact hsold

/-- A changed item is on sale. -/
theorem hasKey_of_modified? {item : Item} {words : Run} {new : Scored Item}
    (h : menu.modified? item words = some new) : menu.catalog.hasKey new.value.key = true := by
  obtain ⟨matrix, said, key, -, -, -, hsold, -, rfl⟩ := modified?_eq_some h
  exact hsold

/-- A replacement is on sale. -/
theorem hasKey_of_replacement? {target : Item} {segment : Segment} {new : Scored Item}
    (h : menu.replacement? target segment = some new) :
    menu.catalog.hasKey new.value.key = true := by
  obtain ⟨pid, matrix, said, key, -, -, -, -, hsold, rfl⟩ := replacement?_eq_some h
  exact hsold

/-- The item is a variant on sale, and so are its options. -/
structure Sells (menu : Menu) (item : Item) : Prop where
  hasKey : menu.catalog.hasKey item.key = true
  options : Forest.AllOptions (menu.catalog.hasKey · = true) item.children

/-- Detaching an item does not change whether it is sold. -/
theorem sells_detached_iff (item : Item) : menu.Sells item.detached ↔ menu.Sells item := by
  have hoptions := allOptions_detached_iff (fun _ child => menu.catalog.hasKey child = true) item
  constructor
  · rintro ⟨hkey, hchildren⟩
    exact ⟨item.key_detached ▸ hkey, hoptions.1 hchildren⟩
  · rintro ⟨hkey, hchildren⟩
    exact ⟨item.key_detached.symm ▸ hkey, hoptions.2 hchildren⟩

/-- All items and their options are on sale. -/
theorem itemInvariant_sells (menu : Menu) : menu.ItemInvariant menu.Sells where
  detached := sells_detached_iff
  newItem h := ⟨hasKey_of_newItem? h, allOptions_newItem? (fun _ _ _ hsold => hsold) h⟩
  modified hitem h :=
    ⟨hasKey_of_modified? h, allOptions_modified? (fun _ _ _ hsold => hsold) h hitem.options⟩
  replacement htarget h := by
    refine ⟨hasKey_of_replacement? h, allOptions_replacement? (fun _ _ _ hsold => hsold) h ?_⟩
    intro child hchild
    obtain ⟨hleaf, hsold⟩ := htarget.options child hchild
    exact ⟨hleaf, fun hpos _ => hsold hpos⟩
  withoutOption hparent hplaced hoption := by
    refine ⟨?_, hparent.options.withoutOption hplaced hoption⟩
    rw [key_withoutOption]
    exact hparent.hasKey

/-- In every cart that utterances lead to, the items are variants on sale, and so are their options,
apart from the records of removed defaults. Options have no options of their own. -/
theorem hasKey_of_hears (menu : Menu) {c : Cart}
    (hc : Relation.ReflTransGen menu.Hears Cart.empty c) :
    ∀ item ∈ c.items, menu.catalog.hasKey item.key = true ∧ ∀ child ∈ item.children,
      child.children = [] ∧ (0 < child.quantity → menu.catalog.hasKey child.key = true) := by
  intro item hitem
  obtain ⟨hkey, hoptions⟩ := menu.itemInvariant_sells.of_hears hc item hitem
  exact ⟨hkey, hoptions⟩

/-- The coffee shop on a day without whole milk. -/
def withoutWholeMilk : Menu :=
  { CoffeeShop.menu with catalog := CoffeeShop.menu.catalog.exclude ⟨CoffeeShop.milk, 0⟩ }

/-- The cart after a latte was ordered, the milk taken off it, and then a shot put into it. -/
def latteWithoutMilk (menu : Menu) : Cart :=
  (menu.interpretTokens [.addToOrder, .option CoffeeShop.espressoShot "espresso shot"]
    (menu.interpretTokens [.removeItem, .option CoffeeShop.milk "milk"]
      (menu.interpretTokens [.addToOrder, .entity CoffeeShop.latte "latte"]
        Cart.empty).cart).cart).cart

/-- The record of the milk has a variant that is not on sale. The latte and the shot are on sale. -/
theorem hasKey_latteWithoutMilk :
    (withoutWholeMilk.latteWithoutMilk.items.map fun item =>
      (item.key, item.children.map fun child => (child.key, child.quantity))) =
        [(⟨CoffeeShop.latte, 1⟩, [(⟨CoffeeShop.milk, 0⟩, 0), (⟨CoffeeShop.espressoShot, 0⟩, 1)])] ∧
      withoutWholeMilk.catalog.hasKey ⟨CoffeeShop.milk, 0⟩ = false ∧
      Relation.ReflTransGen withoutWholeMilk.Hears Cart.empty withoutWholeMilk.latteWithoutMilk ∧
      ∀ item ∈ withoutWholeMilk.latteWithoutMilk.items,
        withoutWholeMilk.catalog.hasKey item.key = true ∧ ∀ child ∈ item.children,
          child.children = [] ∧
            (0 < child.quantity → withoutWholeMilk.catalog.hasKey child.key = true) := by
  have hc : Relation.ReflTransGen withoutWholeMilk.Hears Cart.empty
      withoutWholeMilk.latteWithoutMilk :=
    ((Relation.ReflTransGen.single (.tokens _ _)).tail (.tokens _ _)).tail (.tokens _ _)
  exact ⟨by decide +kernel, by decide +kernel, hc, withoutWholeMilk.hasKey_of_hears hc⟩

end SpokenOrder.Menu
