import SpokenOrder.CoffeeShop
import SpokenOrder.Proofs.Cart.Items
import SpokenOrder.Proofs.Intent.Edit
import SpokenOrder.Proofs.Intent.Option

/-!
# Numbers identify items

Whatever happens to the cart of a new customer (`Cart.Step`: utterances of all kinds, and items
added, dropped and revised by hand), the cart stays well numbered, and a number that was freed never
returns (`Cart.identity_of_steps`). The edits of the intent grammar are the heart of it: each
production builds unplaced items, drops items, or revises an item of the cart
(`Cart.WellNumbered.edit`).
-/

namespace SpokenOrder

namespace Cart

variable {c d : Cart}

/-! ## Edits -/

/-- An edit keeps a cart well numbered, and gives out new numbers only. -/
theorem WellNumbered.edit {menu : Menu} (h : c.WellNumbered) (hedit : menu.Edit c d) :
    d.WellNumbered ∧ c.Precedes d := by
  have hnodup {item : Item} (hitem : item ∈ c.items) : item.uids.Nodup :=
    h.nodup.sublist (Forest.uids_sublist_of_mem hitem)
  have hfound {new item : Item} (hitem : item ∈ c.items) (hrev : new.Revises item) :
      c.find? new.uid = some item :=
    hrev.uid_eq ▸ Forest.find?_of_mem h.nodup hitem
  cases hedit with
  | added hsegments hne =>
    refine h.addAll fun item hitem => ?_
    obtain ⟨built, hbuilt, rfl⟩ := List.mem_map.1 hitem
    obtain ⟨segment, -, hnew⟩ := List.mem_filterMap.1 hbuilt
    exact Menu.uids_of_newItem? hnew
  | removed => exact h.removeAll _
  | changed hitem hnew =>
    have hrev := Menu.revises_of_modified? (hnodup hitem) hnew
    exact h.replace (hfound hitem hrev) hrev
  | replaced hitem hnew =>
    have hrev := Menu.revises_of_replacement? (hnodup hitem) hnew
    exact h.replace (hfound hitem hrev) hrev
  | @optionRemoved parent option hitem hoption =>
    have hrev := Menu.revises_withoutOption (hnodup hitem) (h.uid_children_ne_zero hitem) hoption
    exact h.replace (hfound hitem hrev) hrev

/-- So do several edits. -/
theorem WellNumbered.edits {menu : Menu} (h : c.WellNumbered)
    (hedits : Relation.ReflTransGen menu.Edit c d) : d.WellNumbered ∧ c.Precedes d := by
  induction hedits with
  | refl => exact ⟨h, .refl c⟩
  | tail _ hedit ih =>
    obtain ⟨hd, hprec⟩ := ih.1.edit hedit
    exact ⟨hd, ih.2.trans hprec⟩

/-- So does an utterance. -/
theorem WellNumbered.interpretLattice {α : Type} [Score α] (h : c.WellNumbered) (menu : Menu)
    (lattice : Lattice α) (threshold : α) :
    (menu.interpretLattice lattice threshold c).cart.WellNumbered ∧
      c.Precedes (menu.interpretLattice lattice threshold c).cart :=
  h.edits ((Scene.ofLattice menu lattice threshold).edits_of_interpret c)

/-! ## Steps -/

/-- What can happen to a cart: an utterance is interpreted, given as a text, a lattice or a list of
tokens, or an item is dropped, added or revised by hand. -/
inductive Step : Cart → Cart → Prop
  | text {α : Type} [Score α] (menu : Menu) (lexicon : Lexicon) (text : String) (threshold : α)
      (c : Cart) : Step c (menu.interpretText lexicon text threshold c).cart
  | lattice {α : Type} [Score α] (menu : Menu) (lattice : Lattice α) (threshold : α) (c : Cart) :
      Step c (menu.interpretLattice lattice threshold c).cart
  | tokens (menu : Menu) (tokens : List Token) (c : Cart) :
      Step c (menu.interpretTokens tokens c).cart
  | remove (u : Uid) (c : Cart) : Step c (c.remove u)
  | add {item : Item} (c : Cart) : (∀ u ∈ item.uids, u = 0) → Step c (c.add item)
  | replace {c : Cart} {old new : Item} : c.find? new.uid = some old → new.Revises old →
      Step c (c.replace new)

/-- A step keeps a cart well numbered, and gives out new numbers only. -/
theorem WellNumbered.step (h : c.WellNumbered) (hstep : Step c d) :
    d.WellNumbered ∧ c.Precedes d := by
  cases hstep with
  | text menu lexicon text threshold =>
    exact h.interpretLattice menu (lexicon.lattice text) threshold
  | lattice menu lattice threshold => exact h.interpretLattice menu lattice threshold
  | tokens menu tokens => exact h.interpretLattice menu (.ofTokens tokens) defaultThreshold
  | remove u => exact ⟨h.remove u, precedes_remove c u⟩
  | add _ hitem => exact ⟨h.add hitem, h.precedes_add hitem⟩
  | replace hfind hrev => exact h.replace hfind hrev

/-- Any number of steps keep a cart well numbered, and give out new numbers only. -/
theorem WellNumbered.steps (h : c.WellNumbered) (hsteps : Relation.ReflTransGen Step c d) :
    d.WellNumbered ∧ c.Precedes d := by
  induction hsteps with
  | refl => exact ⟨h, .refl c⟩
  | tail _ hstep ih =>
    obtain ⟨hd, hprec⟩ := ih.1.step hstep
    exact ⟨hd, ih.2.trans hprec⟩

/-- In every cart that steps lead to from the empty one, the items and their descendants have
distinct numbers, none of them 0 and all of them below the next one, and the numbers of the
top-level items ascend. From there on the next number never falls, and a number that is not in use
any more is never in use again. -/
theorem identity_of_steps (hc : Relation.ReflTransGen Step empty c)
    (hd : Relation.ReflTransGen Step c d) :
    (∀ u ∈ c.uids, u ≠ 0) ∧ c.uids.Nodup ∧ (∀ u ∈ c.uids, u < c.nextUid) ∧
      (c.items.map Item.uid).Pairwise (· < ·) ∧
      c.nextUid ≤ d.nextUid ∧ ∀ u, u < c.nextUid → u ∉ c.uids → u ∉ d.uids := by
  have h := (wellNumbered_empty.steps hc).1
  have hprec := (h.steps hd).2
  exact ⟨h.ne_zero, h.nodup, h.lt_nextUid, h.ascending, hprec.nextUid_le,
    fun _ hlt hu => hprec.notMem hlt hu⟩

/-- A coffee with the given option, both with their numbers. -/
def coffeeWith (u v : Uid) (option : Pid) : Item :=
  ⟨u, ⟨CoffeeShop.coffee, 0⟩, 1, [⟨v, ⟨option, 0⟩, 1, []⟩]⟩

/-- The cart after a coffee with milk was ordered and its milk exchanged for half and half. -/
def coffeeRevised : Cart :=
  (empty.add (coffeeWith 0 0 CoffeeShop.milk)).replace (coffeeWith 1 0 CoffeeShop.halfAndHalf)

/-- The cart after the half and half was dropped as well, somebody asked for a cone, and a coffee
with milk was ordered once more. -/
def coffeeReordered : Cart :=
  (CoffeeShop.menu.interpretTokens [.addToOrder, .entity CoffeeShop.cone "cone"]
    (coffeeRevised.remove 3)).cart.add (coffeeWith 0 0 CoffeeShop.milk)

/-- The first milk had the number 2. The second one gets the number 6, and not 2 or 3. -/
theorem identity_of_coffee_steps :
    coffeeRevised.uids = [1, 3] ∧ coffeeRevised.nextUid = 4 ∧
      coffeeReordered.uids = [1, 4, 5, 6] ∧
      Relation.ReflTransGen Step empty coffeeRevised ∧
      Relation.ReflTransGen Step coffeeRevised coffeeReordered ∧
      (∀ u ∈ coffeeRevised.uids, u ≠ 0) ∧ coffeeRevised.uids.Nodup ∧
      (∀ u ∈ coffeeRevised.uids, u < coffeeRevised.nextUid) ∧
      (coffeeRevised.items.map Item.uid).Pairwise (· < ·) ∧
      coffeeRevised.nextUid ≤ coffeeReordered.nextUid ∧
      ∀ u, u < coffeeRevised.nextUid → u ∉ coffeeRevised.uids → u ∉ coffeeReordered.uids := by
  have hunplaced : ∀ u ∈ (coffeeWith 0 0 CoffeeShop.milk).uids, u = 0 := by decide
  have hrevises : (coffeeWith 1 0 CoffeeShop.halfAndHalf).Revises
      (coffeeWith 1 2 CoffeeShop.milk) := ⟨rfl, by decide, by decide⟩
  have hc : Relation.ReflTransGen Step empty coffeeRevised :=
    (Relation.ReflTransGen.single (.add _ hunplaced)).tail (.replace rfl hrevises)
  have hd : Relation.ReflTransGen Step coffeeRevised coffeeReordered :=
    ((Relation.ReflTransGen.single (.remove 3 _)).tail (.tokens _ _ _)).tail (.add _ hunplaced)
  exact ⟨by decide, by decide, by decide +kernel, hc, hd, identity_of_steps hc hd⟩

end Cart

end SpokenOrder
