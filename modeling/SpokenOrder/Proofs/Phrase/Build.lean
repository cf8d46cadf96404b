import SpokenOrder.Phrase.Build
import SpokenOrder.Proofs.Cart.WellNumbered
import SpokenOrder.Proofs.Particulars.Merge

/-!
# What phrases build

The builders are inverted once: what is built has a key that is sold, and children that come from a
merge (`Menu.newItem?_eq_some`, `Menu.modified?_eq_some`, `Menu.replacement?_eq_some`). In terms of
numbers, a new item has none yet (`Menu.uids_of_newItem?`), and a changed or replaced item is a
revision of the item that it was made from (`Menu.revises_of_modified?`,
`Menu.revises_of_replacement?`).
-/

namespace SpokenOrder

namespace Menu

variable {menu : Menu}

/-- What a segment says about its product. -/
def said (menu : Menu) (segment : Segment) : Particulars :=
  Particulars.readAround menu (segment.pid?.bind menu.matrixFor?) segment.left segment.right

/-- What a segment of a registered item says is read around the item with its matrix. -/
theorem said_eq {segment : Segment} {pid : Pid} {matrix : Matrix} (hpid : segment.pid? = some pid)
    (hmatrix : menu.matrixFor? pid = some matrix) :
    menu.said segment =
      Particulars.readAround menu (some matrix) segment.left segment.right := by
  rw [said, hpid, Option.bind_some, hmatrix]

/-! ## Inversion -/

/-- How a new item was built. -/
theorem newItem?_eq_some {segment : Segment} {built : Scored Item}
    (h : menu.newItem? segment = some built) :
    ∃ pid matrix said key, segment.pid? = some pid ∧ menu.matrixFor? pid = some matrix ∧
      said = Particulars.readAround menu (some matrix) segment.left segment.right ∧
      key = matrix.key pid said.attributes ∧ menu.catalog.hasKey key = true ∧
      built = ⟨⟨0, key, said.quantity.getD 1, (menu.mergeParts key [] said.parts).1⟩,
        1 + said.used - (menu.mergeParts key [] said.parts).2, segment.tokenCount⟩ := by
  obtain ⟨pid, hpid, h⟩ := Option.bind_eq_some_iff.1 h
  obtain ⟨matrix, hmatrix, h⟩ := Option.bind_eq_some_iff.1 h
  dsimp only at h
  split at h
  · next hsold => cases h; exact ⟨pid, matrix, _, _, hpid, hmatrix, rfl, rfl, hsold, rfl⟩
  · cases h

/-- How a changed item was built. -/
theorem modified?_eq_some {item : Item} {words : Run} {new : Scored Item}
    (h : menu.modified? item words = some new) :
    ∃ matrix said key, menu.matrixFor? item.key.pid = some matrix ∧
      said = Particulars.empty.readLeft menu (some matrix) words ∧
      key = matrix.key item.key.pid (said.attributes ++ matrix.attributes item.key.index) ∧
      menu.catalog.hasKey key = true ∧
      said.used - (menu.mergeParts key item.children said.parts).2 ≠ 0 ∧
      new = ⟨⟨item.uid, key, said.quantity.getD item.quantity,
        (menu.mergeParts key item.children said.parts).1⟩,
        said.used - (menu.mergeParts key item.children said.parts).2, words.tokenCount⟩ := by
  obtain ⟨matrix, hmatrix, h⟩ := Option.bind_eq_some_iff.1 h
  dsimp only at h
  split at h
  · cases h
  · split at h
    · next hsold =>
      split at h
      · cases h
      · next hscore => cases h; exact ⟨matrix, _, _, hmatrix, rfl, rfl, hsold, hscore, rfl⟩
    · cases h

/-- How a replacement was built. -/
theorem replacement?_eq_some {target : Item} {segment : Segment} {new : Scored Item}
    (h : menu.replacement? target segment = some new) :
    ∃ pid matrix said key, segment.pid? = some pid ∧ menu.matrixFor? pid = some matrix ∧
      said = Particulars.readAround menu (some matrix) segment.left segment.right ∧
      key = matrix.key pid (said.attributes ++ menu.attributesOf target.key) ∧
      menu.catalog.hasKey key = true ∧
      new = ⟨⟨target.uid, key, said.quantity.getD target.quantity,
        (menu.replacementChildren key target.children said.parts).1⟩,
        1 + said.used - (menu.replacementChildren key target.children said.parts).2,
        segment.tokenCount⟩ := by
  obtain ⟨pid, hpid, h⟩ := Option.bind_eq_some_iff.1 h
  obtain ⟨matrix, hmatrix, h⟩ := Option.bind_eq_some_iff.1 h
  dsimp only at h
  split at h
  · next hsold => cases h; exact ⟨pid, matrix, _, _, hpid, hmatrix, rfl, rfl, hsold, rfl⟩
  · cases h

end Menu

/-! ## Numbers -/

/-- The numbers in a forest that were given out already. -/
def Forest.placedUids (f : Forest) : List Uid := (Forest.uids f).filter (· ≠ 0)

namespace Forest

/-- The numbers of two forests in a row are those of the one, then those of the other. -/
theorem placedUids_append (f g : Forest) :
    placedUids (f ++ g) = placedUids f ++ placedUids g := by
  rw [placedUids, uids_append, List.filter_append]; rfl

@[simp] theorem placedUids_ofKey (key : Key) (quantity : Nat) :
    placedUids [Item.ofKey key quantity] = [] := rfl

/-- The numbers of the first item come first. -/
theorem placedUids_cons (item : Item) (rest : Forest) :
    placedUids (item :: rest) = placedUids [item] ++ placedUids rest :=
  placedUids_append [item] rest

/-- Changing an item without touching numbers. -/
theorem uids_modify {change : Item → Item} (h : ∀ item, (change item).uids = item.uids)
    (f : Forest) (i : Nat) : uids (f.modify i change) = uids f := by
  induction f generalizing i with
  | nil => rw [List.modify_nil]
  | cons item rest ih =>
    cases i with
    | zero => rw [List.modify_zero_cons, uids_cons, uids_cons, h]
    | succ i => rw [List.modify_succ_cons, uids_cons, uids_cons, ih]

/-- An item that is not placed pushes out the numbers of the one in whose place it comes. -/
theorem placedUids_set {item : Item} (hitem : placedUids [item] = []) (f : Forest) (i : Nat) :
    (placedUids (f.set i item)).Sublist (placedUids f) := by
  induction f generalizing i with
  | nil => exact .slnil
  | cons first rest ih =>
    cases i with
    | zero =>
      rw [List.set_cons_zero, placedUids_cons, hitem, placedUids_cons first]
      exact List.sublist_append_right _ _
    | succ i =>
      rw [List.set_cons_succ, placedUids_cons first, placedUids_cons first rest]
      exact (ih i).append_left _

end Forest

namespace Menu

variable {menu : Menu}

/-- To put a new child in place brings in no numbers. -/
theorem placedUids_putChild (parent : Key) (children : List Item) {child : Item}
    (hchild : Forest.placedUids [child] = []) :
    (Forest.placedUids (menu.putChild parent children child)).Sublist
      (Forest.placedUids children) := by
  unfold putChild
  split
  · rw [Forest.placedUids, Forest.uids_modify fun item => by rw [Item.uids_eq, Item.uids_eq]]
    exact .refl _
  · split
    · exact Forest.placedUids_set hchild children _
    · rw [Forest.placedUids_append, hchild, List.append_nil]

/-- A merge gives out no numbers, and keeps those of the children that stay. -/
theorem placedUids_mergeParts (parent : Key) (children : List Item) (parts : List Part) :
    (Forest.placedUids (menu.mergeParts parent children parts).1).Sublist
      (Forest.placedUids children) := by
  refine mergeParts_induction
    (P := fun merged => (Forest.placedUids merged).Sublist (Forest.placedUids children))
    (fun merged child ⟨part, _, hchild⟩ _ hmerged => ?_) (.refl _)
  have hnew : Forest.placedUids [child] = [] := by
    rw [(eq_ofKey_of_mem_candidates hchild).1, Forest.placedUids_ofKey]
  exact (placedUids_putChild parent merged hnew).trans hmerged

/-- A new item and its children have no numbers yet. -/
theorem uids_of_newItem? {segment : Segment} {built : Scored Item}
    (h : menu.newItem? segment = some built) : ∀ u ∈ built.value.uids, u = 0 := by
  obtain ⟨pid, matrix, said, key, -, -, -, -, -, rfl⟩ := newItem?_eq_some h
  have hchildren : Forest.placedUids (menu.mergeParts key [] said.parts).1 = [] :=
    List.sublist_nil.1 (placedUids_mergeParts key [] said.parts)
  intro u hu
  rw [Item.uids_eq] at hu
  rcases List.mem_cons.1 hu with rfl | hu
  · rfl
  · simpa using List.filter_eq_nil_iff.1 hchildren u hu

end Menu

/-- An item with the same number, whose children have some of the numbers of the item's children, is
a revision of the item. -/
theorem Item.revises_of_sublist {new old : Item} (hold : old.uids.Nodup) (huid : new.uid = old.uid)
    (h : (Forest.placedUids new.children).Sublist (Forest.placedUids old.children)) :
    new.Revises old where
  uid_eq := huid
  nodup := by
    rw [Item.uids_eq] at hold
    exact ((List.nodup_cons.1 hold).2.filter _).sublist h
  subset u hu h0 := (List.mem_filter.1 (h.subset (List.mem_filter.2 ⟨hu, by simpa using h0⟩))).1

namespace Menu

variable {menu : Menu}

/-- A changed item is a revision of the item. -/
theorem revises_of_modified? {item : Item} (hitem : item.uids.Nodup) {words : Run}
    {new : Scored Item} (h : menu.modified? item words = some new) : new.value.Revises item := by
  obtain ⟨matrix, said, key, -, -, -, -, -, rfl⟩ := modified?_eq_some h
  exact Item.revises_of_sublist hitem rfl (placedUids_mergeParts key item.children said.parts)

/-- A replacement is a revision of its target. -/
theorem revises_of_replacement? {target : Item} (htarget : target.uids.Nodup) {segment : Segment}
    {new : Scored Item} (h : menu.replacement? target segment = some new) :
    new.value.Revises target := by
  obtain ⟨pid, matrix, said, key, -, -, -, -, -, rfl⟩ := replacement?_eq_some h
  refine Item.revises_of_sublist htarget rfl ?_
  dsimp only [replacementChildren]
  split
  · -- No part was named: old children that may go on the new item are kept as they are.
    exact (Forest.uids_sublist List.filter_sublist).filter _
  · exact (placedUids_mergeParts key [] said.parts).trans (List.nil_sublist _)

end Menu

end SpokenOrder
