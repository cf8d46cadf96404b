import Mathlib.Data.List.Nodup
import SpokenOrder.Item

/-!
# The numbers in a tree of items

`Item.uids` lists the numbers of an item and its descendants, parents before children. Each
operation on items is described by what it does to this list: numbering fills the places of the
zeros with consecutive numbers (`Item.uids_numbered`), and dropping a number leaves a sublist
(`Item.uids_without`). Nothing is found, dropped or exchanged under a number that does not occur.
-/

namespace SpokenOrder

mutual

/-- The numbers of the item and its descendants, parents before children. -/
def Item.uids : Item → List Uid
  | ⟨u, _, _, children⟩ => u :: Forest.uids children

/-- The numbers of the items and their descendants, from left to right. -/
def Forest.uids : Forest → List Uid
  | [] => []
  | item :: rest => item.uids ++ Forest.uids rest

end

/-- The numbers of an item are its own and those of its children. -/
theorem Item.uids_eq (item : Item) : item.uids = item.uid :: Forest.uids item.children := by
  cases item; rfl

@[simp] theorem Forest.uids_nil : Forest.uids [] = [] := rfl

@[simp] theorem Forest.uids_cons (item : Item) (rest : Forest) :
    Forest.uids (item :: rest) = item.uids ++ Forest.uids rest := rfl

/-- The numbers of a forest are those of its items, one after another. -/
theorem Forest.uids_eq_flatMap (f : Forest) : Forest.uids f = f.flatMap Item.uids := by
  induction f with
  | nil => rfl
  | cons item rest ih => rw [Forest.uids_cons, ih, List.flatMap_cons]

@[simp] theorem Forest.uids_append (f g : Forest) :
    Forest.uids (f ++ g) = Forest.uids f ++ Forest.uids g := by
  simp only [Forest.uids_eq_flatMap, List.flatMap_append]

@[simp] theorem Item.uids_ofKey (key : Key) (quantity : Nat) :
    (Item.ofKey key quantity).uids = [0] := rfl

/-- An item's own number is the first of its numbers. -/
theorem Item.uid_mem_uids (item : Item) : item.uid ∈ item.uids := by
  rw [Item.uids_eq]
  exact List.mem_cons_self

/-- The numbers of the roots are among the numbers, in their order. -/
theorem Forest.map_uid_sublist (f : Forest) : (f.map Item.uid).Sublist (Forest.uids f) := by
  induction f with
  | nil => exact .slnil
  | cons item rest ih =>
    rw [List.map_cons, Forest.uids_cons, Item.uids_eq, List.cons_append]
    exact (ih.trans (List.sublist_append_right _ _)).cons_cons _

/-- The numbers of an item of a forest are numbers of the forest, in their order. -/
theorem Forest.uids_sublist_of_mem {f : Forest} {item : Item} (h : item ∈ f) :
    item.uids.Sublist (Forest.uids f) := by
  obtain ⟨before, after, rfl⟩ := List.append_of_mem h
  rw [Forest.uids_append, Forest.uids_cons]
  exact (List.sublist_append_left _ _).trans (List.sublist_append_right _ _)

/-- The number of a child is one of the numbers of the item. -/
theorem Item.uid_child_mem_uids {item child : Item} (h : child ∈ item.children) :
    child.uid ∈ item.uids := by
  rw [Item.uids_eq]
  exact List.mem_cons_of_mem _ ((Forest.uids_sublist_of_mem h).subset child.uid_mem_uids)

/-- A part of a forest has a part of its numbers. -/
theorem Forest.uids_sublist {f g : Forest} (h : f.Sublist g) :
    (Forest.uids f).Sublist (Forest.uids g) := by
  induction h with
  | slnil => exact .slnil
  | cons item _ ih => exact ih.trans (List.sublist_append_right _ _)
  | cons_cons item _ ih => exact ih.append_left _

/-! ## Filling the zeros -/

/-- Puts `next`, `next + 1`, … in the places of the zeros. -/
def fillZeros (next : Nat) : List Nat → List Nat
  | [] => []
  | u :: us => if u = 0 then next :: fillZeros (next + 1) us else u :: fillZeros next us

/-- Numbers are filled in from left to right. -/
theorem fillZeros_append (next : Nat) (us vs : List Nat) :
    fillZeros next (us ++ vs) = fillZeros next us ++ fillZeros (next + us.count 0) vs := by
  induction us generalizing next with
  | nil => simp [fillZeros]
  | cons u us ih =>
    by_cases hu : u = 0
    · subst hu
      have hcount : next + 1 + us.count 0 = next + (0 :: us).count 0 := by
        rw [List.count_cons_self]; omega
      rw [List.cons_append, fillZeros, if_pos rfl, ih, hcount, fillZeros, if_pos rfl,
        List.cons_append]
    · rw [List.cons_append, fillZeros, if_neg hu, ih, fillZeros, if_neg hu,
        List.count_cons_of_ne hu, List.cons_append]

/-- Without zeros there is nothing to fill. -/
theorem fillZeros_of_ne_zero {next : Nat} {us : List Nat} (h : ∀ u ∈ us, u ≠ 0) :
    fillZeros next us = us := by
  induction us with
  | nil => rfl
  | cons u us ih =>
    rw [fillZeros, if_neg (h u List.mem_cons_self), ih fun v hv => h v (List.mem_cons_of_mem _ hv)]

/-- What stands in a filled list stood there before, or is one of the numbers given out. -/
theorem mem_fillZeros {next v : Nat} {us : List Nat} (h : v ∈ fillZeros next us) :
    (v ∈ us ∧ v ≠ 0) ∨ (next ≤ v ∧ v < next + us.count 0) := by
  induction us generalizing next with
  | nil => cases h
  | cons u us ih =>
    by_cases hu : u = 0
    · subst hu
      rw [fillZeros, if_pos rfl] at h
      rw [List.count_cons_self]
      rcases List.mem_cons.1 h with rfl | h
      · exact .inr ⟨Nat.le_refl _, by omega⟩
      · rcases ih h with ⟨hv, hv0⟩ | ⟨hle, hlt⟩
        · exact .inl ⟨List.mem_cons_of_mem _ hv, hv0⟩
        · exact .inr ⟨by omega, by omega⟩
    · rw [fillZeros, if_neg hu] at h
      rw [List.count_cons_of_ne hu]
      rcases List.mem_cons.1 h with rfl | h
      · exact .inl ⟨List.mem_cons_self, hu⟩
      · exact (ih h).imp_left fun ⟨hv, hv0⟩ => ⟨List.mem_cons_of_mem _ hv, hv0⟩

/-- If the numbers apart from zeros are distinct and below `next`, then after filling all numbers
are distinct. -/
theorem nodup_fillZeros {next : Nat} {us : List Nat} (hus : (us.filter (· ≠ 0)).Nodup)
    (hlt : ∀ u ∈ us, u < next) : (fillZeros next us).Nodup := by
  induction us generalizing next with
  | nil => exact .nil
  | cons u us ih =>
    have hlt' : ∀ v ∈ us, v < next := fun v hv => hlt v (List.mem_cons_of_mem _ hv)
    by_cases hu : u = 0
    · subst hu
      rw [List.filter_cons_of_neg (by simp)] at hus
      rw [fillZeros, if_pos rfl]
      refine List.nodup_cons.2 ⟨fun hmem => ?_, ih hus fun v hv => by have := hlt' v hv; omega⟩
      rcases mem_fillZeros hmem with ⟨hv, -⟩ | ⟨hle, -⟩
      · exact absurd (hlt' _ hv) (Nat.lt_irrefl _)
      · omega
    · rw [List.filter_cons_of_pos (by simpa using hu)] at hus
      obtain ⟨hnot, hus⟩ := List.nodup_cons.1 hus
      rw [fillZeros, if_neg hu]
      refine List.nodup_cons.2 ⟨fun hmem => ?_, ih hus hlt'⟩
      rcases mem_fillZeros hmem with ⟨hv, -⟩ | ⟨hle, -⟩
      · exact hnot (List.mem_filter.2 ⟨hv, by simpa using hu⟩)
      · exact absurd (hlt u List.mem_cons_self) (by omega)

/-! ## Numbering -/

mutual

/-- Numbering an item fills the zeros among its numbers, and the next free number moves on by one
for each. -/
theorem Item.uids_numbered (next : Uid) : ∀ item : Item,
    (item.numbered next).1.uids = fillZeros next item.uids ∧
      (item.numbered next).2 = next + item.uids.count 0
  | ⟨u, key, quantity, children⟩ => by
    by_cases hu : u = 0
    · subst hu
      obtain ⟨huids, hfree⟩ := Forest.uids_numbered (next + 1) children
      simp only [Item.numbered, Item.uids, fillZeros, if_true, huids, hfree,
        List.count_cons_self, true_and]
      exact Nat.add_right_comm next 1 _
    · obtain ⟨huids, hfree⟩ := Forest.uids_numbered next children
      simp only [Item.numbered, Item.uids, fillZeros, if_neg hu, huids, hfree,
        List.count_cons_of_ne hu, and_self]

/-- Numbering a forest fills the zeros among its numbers. -/
theorem Forest.uids_numbered (next : Uid) : ∀ f : Forest,
    Forest.uids (Forest.numbered next f).1 = fillZeros next (Forest.uids f) ∧
      (Forest.numbered next f).2 = next + (Forest.uids f).count 0
  | [] => ⟨rfl, rfl⟩
  | item :: rest => by
    obtain ⟨hitem, hfree⟩ := Item.uids_numbered next item
    obtain ⟨hrest, hlast⟩ := Forest.uids_numbered (item.numbered next).2 rest
    rw [hfree] at hrest hlast
    constructor
    · simp only [Forest.numbered, Forest.uids_cons, hitem, hfree, hrest, fillZeros_append]
    · simp only [Forest.numbered, Forest.uids_cons, hfree, hlast, List.count_append]
      exact Nat.add_assoc _ _ _

end

/-- A number that an item has already is kept. -/
theorem Item.uid_numbered {item : Item} (next : Uid) (h : item.uid ≠ 0) :
    (item.numbered next).1.uid = item.uid := by
  obtain ⟨u, key, quantity, children⟩ := item
  simp only [Item.numbered]
  exact if_neg h

mutual

/-- Where all items have numbers already, nothing is numbered. -/
theorem Item.numbered_of_ne_zero {next : Uid} : ∀ {item : Item},
    (∀ u ∈ item.uids, u ≠ 0) → item.numbered next = (item, next)
  | ⟨u, key, quantity, children⟩, h => by
    rw [Item.uids, List.forall_mem_cons] at h
    simp only [Item.numbered, if_neg h.1, Forest.numbered_of_ne_zero h.2]

/-- Where all items of a forest have numbers already, nothing is numbered. -/
theorem Forest.numbered_of_ne_zero {next : Uid} : ∀ {f : Forest},
    (∀ u ∈ Forest.uids f, u ≠ 0) → Forest.numbered next f = (f, next)
  | [], _ => rfl
  | item :: rest, h => by
    rw [Forest.uids_cons, List.forall_mem_append] at h
    simp only [Forest.numbered, Item.numbered_of_ne_zero h.1, Forest.numbered_of_ne_zero h.2]

end

/-- Behind items that have numbers, an item is numbered as it would be by itself. -/
theorem Forest.numbered_concat {next : Uid} {f : Forest} (h : ∀ u ∈ Forest.uids f, u ≠ 0)
    (item : Item) :
    Forest.numbered next (f ++ [item]) =
      (f ++ [(item.numbered next).1], (item.numbered next).2) := by
  induction f with
  | nil => rfl
  | cons first rest ih =>
    rw [Forest.uids_cons, List.forall_mem_append] at h
    simp only [List.cons_append, Forest.numbered, Item.numbered_of_ne_zero h.1, ih h.2]

/-- An item without a number gets the next one. -/
theorem Item.uid_numbered_of_eq_zero {item : Item} (next : Uid) (h : item.uid = 0) :
    (item.numbered next).1.uid = next := by
  obtain ⟨u, key, quantity, children⟩ := item
  simp only [Item.numbered]
  exact if_pos h

/-! ## Dropping a number -/

mutual

/-- Dropping a number from below an item leaves a part of its numbers. -/
theorem Item.uids_without (u : Uid) : ∀ item : Item, (item.without u).uids.Sublist item.uids
  | ⟨_, _, _, children⟩ => (Forest.uids_without u children).cons_cons _

/-- Dropping a number from a forest leaves a part of its numbers. -/
theorem Forest.uids_without (u : Uid) : ∀ f : Forest,
    (Forest.uids (Forest.without u f)).Sublist (Forest.uids f)
  | [] => .slnil
  | item :: rest => by
    rw [Forest.without]
    split
    · exact (Forest.uids_without u rest).trans (List.sublist_append_right _ _)
    · exact (Item.uids_without u item).append (Forest.uids_without u rest)

end

theorem Item.uid_without (u : Uid) (item : Item) : (item.without u).uid = item.uid := by
  cases item; rfl

mutual

/-- Dropping a number that does not occur below an item changes nothing. -/
theorem Item.without_of_notMem {u : Uid} : ∀ {item : Item},
    u ∉ Forest.uids item.children → item.without u = item
  | ⟨_, _, _, children⟩, h => by rw [Item.without, Forest.without_of_notMem h]

/-- Dropping a number that does not occur in a forest changes nothing. -/
theorem Forest.without_of_notMem {u : Uid} : ∀ {f : Forest},
    u ∉ Forest.uids f → Forest.without u f = f
  | [], _ => rfl
  | item :: rest, h => by
    rw [Forest.uids_cons, List.mem_append, Item.uids_eq, List.mem_cons, not_or, not_or] at h
    rw [Forest.without, if_neg (Ne.symm h.1.1), Item.without_of_notMem h.1.2,
      Forest.without_of_notMem h.2]

end

/-- Dropping a number leaves a part of the roots. -/
theorem Forest.map_uid_without (u : Uid) (f : Forest) :
    ((Forest.without u f).map Item.uid).Sublist (f.map Item.uid) := by
  induction f with
  | nil => exact .slnil
  | cons item rest ih =>
    rw [Forest.without]
    split
    · exact ih.cons _
    · rw [List.map_cons, List.map_cons, Item.uid_without]
      exact ih.cons_cons _

/-! ## Look-up and exchange -/

mutual

/-- What is found under a number has this number. -/
theorem Item.uid_of_find? {u : Uid} : ∀ {item found : Item},
    item.find? u = some found → found.uid = u
  | ⟨v, key, quantity, children⟩, found, h => by
    rw [Item.find?] at h
    split at h
    · next hv => cases h; exact hv
    · exact Forest.uid_of_find? h

/-- What is found under a number in a forest has this number. -/
theorem Forest.uid_of_find? {u : Uid} : ∀ {f : Forest} {found : Item},
    Forest.find? u f = some found → found.uid = u
  | item :: rest, found, h => by
    rw [Forest.find?, Option.or_eq_some_iff] at h
    rcases h with h | ⟨-, h⟩
    · exact Item.uid_of_find? h
    · exact Forest.uid_of_find? h

end

mutual

/-- Nothing is found exactly under the numbers that do not occur. -/
theorem Item.find?_eq_none_iff {u : Uid} : ∀ {item : Item}, item.find? u = none ↔ u ∉ item.uids
  | ⟨v, key, quantity, children⟩ => by
    rw [Item.find?, Item.uids, List.mem_cons, not_or]
    split
    · next hv => simp [hv]
    · next hv => rw [Forest.find?_eq_none_iff, and_iff_right (Ne.symm hv)]

/-- Nothing is found in a forest exactly under the numbers that do not occur. -/
theorem Forest.find?_eq_none_iff {u : Uid} : ∀ {f : Forest},
    Forest.find? u f = none ↔ u ∉ Forest.uids f
  | [] => by simp [Forest.find?]
  | item :: rest => by
    rw [Forest.find?, Option.or_eq_none_iff, Item.find?_eq_none_iff, Forest.find?_eq_none_iff,
      Forest.uids_cons, List.mem_append, not_or]

end

mutual

/-- Where the number of the new item does not occur, nothing is exchanged. -/
theorem Item.replacing_of_notMem {new : Item} : ∀ {item : Item},
    new.uid ∉ item.uids → Item.replacing new item = item
  | ⟨u, key, quantity, children⟩, h => by
    rw [Item.uids, List.mem_cons, not_or] at h
    rw [Item.replacing, if_neg (Ne.symm h.1), Forest.replacing_of_notMem h.2]

/-- Where the number of the new item does not occur in a forest, nothing is exchanged. -/
theorem Forest.replacing_of_notMem {new : Item} : ∀ {f : Forest},
    new.uid ∉ Forest.uids f → Forest.replacing new f = f
  | [], _ => rfl
  | item :: rest, h => by
    rw [Forest.uids_cons, List.mem_append, not_or] at h
    rw [Forest.replacing, Item.replacing_of_notMem h.1, Forest.replacing_of_notMem h.2]

end

/-- A replacement inside an item leaves the number of the item. -/
theorem Item.uid_replacing (new item : Item) : (Item.replacing new item).uid = item.uid := by
  obtain ⟨u, key, quantity, children⟩ := item
  rw [Item.replacing]
  split
  · next hu => exact hu.symm
  · rfl

/-- An item is replaced by itself. -/
theorem Item.replacing_self (new : Item) : Item.replacing new new = new := by
  obtain ⟨u, key, quantity, children⟩ := new
  rw [Item.replacing, if_pos rfl]

mutual

/-- To exchange an item twice is to exchange it once. -/
theorem Item.replacing_replacing (new : Item) : ∀ item : Item,
    Item.replacing new (Item.replacing new item) = Item.replacing new item
  | ⟨u, key, quantity, children⟩ => by
    by_cases hu : u = new.uid
    · rw [Item.replacing, if_pos hu, Item.replacing_self]
    · rw [Item.replacing, if_neg hu, Item.replacing, if_neg hu, Forest.replacing_replacing]

/-- To exchange an item of a forest twice is to exchange it once. -/
theorem Forest.replacing_replacing (new : Item) : ∀ f : Forest,
    Forest.replacing new (Forest.replacing new f) = Forest.replacing new f
  | [] => rfl
  | item :: rest => by
    simp only [Forest.replacing, Item.replacing_replacing, Forest.replacing_replacing]

end

mutual

/-- After an exchange, the new item is found where the old one was. -/
theorem Item.find?_replacing (new : Item) : ∀ item : Item,
    (Item.replacing new item).find? new.uid = (item.find? new.uid).map fun _ => new
  | ⟨u, key, quantity, children⟩ => by
    rw [Item.replacing, Item.find?]
    split
    · obtain ⟨v, key', quantity', children'⟩ := new
      rw [Item.find?, if_pos rfl, Option.map_some]
    · next hu => rw [Item.find?, if_neg hu, Forest.find?_replacing]

/-- After an exchange in a forest, the new item is found where the old one was. -/
theorem Forest.find?_replacing (new : Item) : ∀ f : Forest,
    Forest.find? new.uid (Forest.replacing new f) = (Forest.find? new.uid f).map fun _ => new
  | [] => rfl
  | item :: rest => by
    rw [Forest.replacing, Forest.find?, Forest.find?, Item.find?_replacing, Forest.find?_replacing]
    cases item.find? new.uid <;> rfl

end

/-- An exchange leaves the numbers of the roots. -/
theorem Forest.map_uid_replacing (new : Item) (f : Forest) :
    (Forest.replacing new f).map Item.uid = f.map Item.uid := by
  induction f with
  | nil => rfl
  | cons item rest ih => rw [Forest.replacing, List.map_cons, List.map_cons, Item.uid_replacing, ih]

/-- A root is found under its number, if the numbers are distinct. -/
theorem Forest.find?_of_mem {f : Forest} (hnd : (Forest.uids f).Nodup) {item : Item}
    (h : item ∈ f) : Forest.find? item.uid f = some item := by
  induction f with
  | nil => cases h
  | cons first rest ih =>
    rw [Forest.uids_cons, List.nodup_append] at hnd
    obtain ⟨-, hrest, hdisj⟩ := hnd
    rw [Forest.find?]
    rcases List.mem_cons.1 h with rfl | h
    · obtain ⟨u, key, quantity, children⟩ := item
      rw [Item.find?, if_pos rfl, Option.some_or]
    · have hmem : item.uid ∈ Forest.uids rest :=
        (Forest.uids_sublist_of_mem h).subset item.uid_mem_uids
      have hnone : first.find? item.uid = none :=
        Item.find?_eq_none_iff.2 fun hf => hdisj _ hf _ hmem rfl
      rw [hnone, Option.none_or, ih hrest h]

end SpokenOrder
