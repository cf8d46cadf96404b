import SpokenOrder.Proofs.Cart.Identity

/-!
# What utterances keep

A cart becomes what it is by utterances (`Menu.Hears`), and each of these is a sequence of edits. So
to show that all items of a cart have a property, it is enough to look at the builders: the property
holds of new items, and changing an item, replacing it or taking an option off it keeps it
(`Menu.ItemInvariant`). Then it holds of all items in every cart that utterances lead to
(`Menu.ItemInvariant.of_hears`).
-/

namespace SpokenOrder

/-- What can be said to a menu: an utterance is interpreted, given as a text, a lattice or a list of
tokens. -/
inductive Menu.Hears (menu : Menu) : Cart → Cart → Prop
  | text {α : Type} [Score α] (lexicon : Lexicon) (text : String) (threshold : α) (c : Cart) :
      Hears menu c (menu.interpretText lexicon text threshold c).cart
  | lattice {α : Type} [Score α] (lattice : Lattice α) (threshold : α) (c : Cart) :
      Hears menu c (menu.interpretLattice lattice threshold c).cart
  | tokens (tokens : List Token) (c : Cart) : Hears menu c (menu.interpretTokens tokens c).cart

/-- A property of items that does not depend on their numbers, and that the builders of the menu
bring about or keep. -/
structure Menu.ItemInvariant (menu : Menu) (P : Item → Prop) : Prop where
  detached (item : Item) : P item.detached ↔ P item
  newItem {segment : Segment} {built : Scored Item} :
    menu.newItem? segment = some built → P built.value
  modified {item : Item} {words : Run} {new : Scored Item} :
    P item → menu.modified? item words = some new → P new.value
  replacement {target : Item} {segment : Segment} {new : Scored Item} :
    P target → menu.replacement? target segment = some new → P new.value
  withoutOption {parent option : Item} : P parent → (∀ child ∈ parent.children, child.uid ≠ 0) →
    menu.HasOption parent option → P (menu.withoutOption parent option)

namespace Menu

variable {menu : Menu} {c d : Cart}

/-! ## The number of what is built -/

/-- A changed item keeps its number. -/
theorem uid_of_modified? {item : Item} {words : Run} {new : Scored Item}
    (h : menu.modified? item words = some new) : new.value.uid = item.uid := by
  obtain ⟨matrix, said, key, -, -, -, -, -, rfl⟩ := modified?_eq_some h
  rfl

/-- A replacement takes the number of the item that it replaces. -/
theorem uid_of_replacement? {target : Item} {segment : Segment} {new : Scored Item}
    (h : menu.replacement? target segment = some new) : new.value.uid = target.uid := by
  obtain ⟨pid, matrix, said, key, -, -, -, -, -, rfl⟩ := replacement?_eq_some h
  rfl

/-! ## Edits and utterances -/

/-- New items have the property if each of them has it as it is built. -/
theorem forall_built {P : Item → Prop} {segments : List Segment}
    (hnew : ∀ {segment built}, menu.newItem? segment = some built → P built.value) :
    ∀ item ∈ (segments.filterMap menu.newItem?).map (·.value), P item := by
  intro item hitem
  obtain ⟨built, hbuilt, rfl⟩ := List.mem_map.1 hitem
  obtain ⟨segment, -, heq⟩ := List.mem_filterMap.1 hbuilt
  exact hnew heq

/-- An edit keeps the property. -/
theorem ItemInvariant.edit {P : Item → Prop} (hP : menu.ItemInvariant P) (h : c.Identified)
    (hedit : menu.Edit c d) (hc : ∀ item ∈ c.items, P item) : ∀ item ∈ d.items, P item := by
  cases hedit with
  | added hsegments hne => exact Cart.forall_items_addAll hP.detached hc (forall_built hP.newItem)
  | removed hsegments hne hnd hlen huids => exact h.forall_items_removeAll huids hc
  | changed hitem hnew =>
    exact h.forall_items_replace hP.detached hitem (uid_of_modified? hnew) hc
      (hP.modified (hc _ hitem) hnew)
  | replaced hitem hnew =>
    exact h.forall_items_replace hP.detached hitem (uid_of_replacement? hnew) hc
      (hP.replacement (hc _ hitem) hnew)
  | optionRemoved hitem hoption =>
    exact h.forall_items_replace hP.detached hitem (uid_withoutOption _ _) hc
      (hP.withoutOption (hc _ hitem) (h.uid_children_ne_zero hitem) hoption)

/-- An interpretation is a run of edits. -/
theorem edits_of_interpretLattice {α : Type} [Score α] (menu : Menu) (lattice : Lattice α)
    (threshold : α) (c : Cart) :
    Relation.ReflTransGen menu.Edit c (menu.interpretLattice lattice threshold c).cart :=
  (Scene.ofLattice menu lattice threshold).edits_of_interpret c

/-- An utterance is a sequence of edits. -/
theorem Hears.edits (h : menu.Hears c d) : Relation.ReflTransGen menu.Edit c d := by
  cases h with
  | text lexicon text threshold =>
    exact menu.edits_of_interpretLattice (lexicon.lattice text) threshold c
  | lattice lattice threshold => exact menu.edits_of_interpretLattice lattice threshold c
  | tokens tokens => exact menu.edits_of_interpretLattice (.ofTokens tokens) defaultThreshold c

/-- Any number of utterances are a sequence of edits. -/
theorem edits_of_hears (h : Relation.ReflTransGen menu.Hears c d) :
    Relation.ReflTransGen menu.Edit c d := by
  induction h with
  | refl => exact .refl
  | tail _ hhears ih => exact ih.trans hhears.edits

/-- In every cart that utterances lead to from the empty one, the numbers tell the items apart. -/
theorem wellNumbered_of_hears (h : Relation.ReflTransGen menu.Hears Cart.empty c) :
    c.WellNumbered :=
  (Cart.wellNumbered_empty.edits (edits_of_hears h)).1

/-- In every cart that utterances lead to from the empty one, all items have the property. -/
theorem ItemInvariant.of_hears {P : Item → Prop} (hP : menu.ItemInvariant P)
    (h : Relation.ReflTransGen menu.Hears Cart.empty c) : ∀ item ∈ c.items, P item := by
  have hedits := edits_of_hears h
  clear h
  induction hedits with
  | refl => exact fun _ hitem => nomatch hitem
  | tail hbefore hedit ih =>
    exact hP.edit (Cart.wellNumbered_empty.edits hbefore).1.toIdentified hedit ih

end Menu

end SpokenOrder
