import SpokenOrder.Proofs.Cart.WellNumbered

/-!
# The items of a cart

Where numbers tell items and their descendants apart, no number of a top-level item occurs further
down, so what is addressed by such a number happens to that item and to nothing else: dropping
numbers leaves the other items as they are (`Cart.Identified.items_removeAll`), and so does an
exchange (`Cart.Identified.items_replace`). A property of items that does not depend on their numbers
is kept by all of these if it holds of the items that come in (`Cart.forall_items_addAll`,
`Cart.Identified.forall_items_replace`).
-/

namespace SpokenOrder

/-! ## Items without their numbers -/

/-- Taking the numbers off a forest takes them off each item. -/
theorem Forest.detached_eq_map (f : Forest) : Forest.detached f = f.map Item.detached := by
  induction f with
  | nil => rfl
  | cons item rest ih => rw [Forest.detached, ih, List.map_cons]

@[simp] theorem Item.key_detached (item : Item) : item.detached.key = item.key := by
  cases item; rfl

@[simp] theorem Item.quantity_detached (item : Item) : item.detached.quantity = item.quantity := by
  cases item; rfl

@[simp] theorem Item.children_detached (item : Item) :
    item.detached.children = item.children.map Item.detached := by
  cases item; exact Forest.detached_eq_map _

mutual

/-- An item that is given numbers is the same item, apart from them. -/
theorem Item.detached_numbered (next : Uid) : ∀ item : Item,
    (item.numbered next).1.detached = item.detached
  | ⟨u, key, quantity, children⟩ => by
    simp only [Item.numbered, Item.detached, Forest.detached_numbered]

/-- A forest that is given numbers is the same forest, apart from them. -/
theorem Forest.detached_numbered (next : Uid) : ∀ f : Forest,
    Forest.detached (Forest.numbered next f).1 = Forest.detached f
  | [] => rfl
  | item :: rest => by
    simp only [Forest.numbered, Forest.detached, Item.detached_numbered, Forest.detached_numbered]

end

/-! ## Numbers that do not occur -/

/-- A number that occurs in no child of a forest's items is dropped by dropping roots. -/
theorem Forest.without_eq_filter {u : Uid} {f : Forest}
    (h : ∀ item ∈ f, u ∉ Forest.uids item.children) :
    Forest.without u f = f.filter (·.uid ≠ u) := by
  induction f with
  | nil => rfl
  | cons item rest ih =>
    have ih := ih fun other hother => h other (List.mem_cons_of_mem _ hother)
    rw [Forest.without]
    split
    · next hu => rw [List.filter_cons_of_neg (by simpa using hu), ih]
    · next hu =>
      rw [List.filter_cons_of_pos (by simpa using hu), ih,
        Item.without_of_notMem (h item List.mem_cons_self)]

/-- Where the number of `new` occurs in no child of a forest's items, `new` is exchanged for roots
only. -/
theorem Forest.replacing_eq_map {new : Item} {f : Forest}
    (h : ∀ item ∈ f, new.uid ∉ Forest.uids item.children) :
    Forest.replacing new f = f.map fun item => if item.uid = new.uid then new else item := by
  induction f with
  | nil => rfl
  | cons item rest ih =>
    rw [Forest.replacing, List.map_cons,
      ih fun other hother => h other (List.mem_cons_of_mem _ hother)]
    congr 1
    split
    · next hu =>
      obtain ⟨u, key, quantity, children⟩ := item
      exact if_pos hu
    · next hu =>
      refine Item.replacing_of_notMem ?_
      rw [Item.uids_eq, List.mem_cons, not_or]
      exact ⟨Ne.symm hu, h item List.mem_cons_self⟩

namespace Cart

variable {c : Cart}

/-! ## What happens to the items -/

/-- The top-level items have distinct numbers. -/
theorem Identified.nodup_map_uid (h : c.Identified) : (c.items.map Item.uid).Nodup :=
  h.nodup.sublist (Forest.map_uid_sublist c.items)

/-- The items of a cart have numbers. -/
theorem Identified.uid_ne_zero (h : c.Identified) {item : Item} (hitem : item ∈ c.items) :
    item.uid ≠ 0 :=
  h.ne_zero _ ((Forest.uids_sublist_of_mem hitem).subset item.uid_mem_uids)

/-- The number of a top-level item occurs in no child. -/
theorem Identified.uid_notMem_children (h : c.Identified) {item other : Item}
    (hitem : item ∈ c.items) (hother : other ∈ c.items) :
    item.uid ∉ Forest.uids other.children := by
  intro hmem
  obtain ⟨before, after, hitems⟩ := List.append_of_mem hother
  have hnd := h.nodup
  rw [Cart.uids, hitems, Forest.uids_append, Forest.uids_cons] at hnd
  obtain ⟨-, hrest, hbefore⟩ := List.nodup_append.1 hnd
  obtain ⟨hown, -, hafter⟩ := List.nodup_append.1 hrest
  have hbelow : item.uid ∈ other.uids := by
    rw [Item.uids_eq]
    exact List.mem_cons_of_mem _ hmem
  rw [hitems, List.mem_append, List.mem_cons] at hitem
  rcases hitem with hitem | rfl | hitem
  · exact hbefore _ ((Forest.uids_sublist_of_mem hitem).subset item.uid_mem_uids) _
      (List.mem_append_left _ hbelow) rfl
  · rw [Item.uids_eq] at hown
    exact (List.nodup_cons.1 hown).1 hmem
  · exact hafter _ hbelow _ ((Forest.uids_sublist_of_mem hitem).subset item.uid_mem_uids) rfl

/-- The children of a top-level item have numbers. -/
theorem Identified.uid_children_ne_zero (h : c.Identified) {item : Item}
    (hitem : item ∈ c.items) : ∀ child ∈ item.children, child.uid ≠ 0 := by
  intro child hchild
  refine h.ne_zero _ ((Forest.uids_sublist_of_mem hitem).subset ?_)
  rw [Item.uids_eq]
  exact List.mem_cons_of_mem _ ((Forest.uids_sublist_of_mem hchild).subset child.uid_mem_uids)

/-- The children of a top-level item have distinct numbers. -/
theorem Identified.nodup_map_uid_children (h : c.Identified) {item : Item}
    (hitem : item ∈ c.items) : (item.children.map Item.uid).Nodup := by
  have hnd := h.nodup.sublist (Forest.uids_sublist_of_mem hitem)
  rw [Item.uids_eq] at hnd
  exact (List.nodup_cons.1 hnd).2.sublist (Forest.map_uid_sublist item.children)

/-- Items that are added stand behind the others, in their order, and nothing about them changes
but their numbers: those that have none yet get new ones. -/
theorem items_addAll (c : Cart) (items : List Item) : ∃ placed : List Item,
    (c.addAll items).items = c.items ++ placed ∧
      placed.map Item.detached = items.map Item.detached ∧
      ((∀ item ∈ items, item.uid = 0) → ∀ item ∈ placed, c.nextUid ≤ item.uid) := by
  induction items generalizing c with
  | nil => exact ⟨[], (List.append_nil _).symm, rfl, fun _ _ hitem => nomatch hitem⟩
  | cons item rest ih =>
    obtain ⟨placed, hitems, hdetached, hnew⟩ := ih (c.add item)
    refine ⟨(item.numbered c.nextUid).1 :: placed, ?_, ?_, ?_⟩
    · rw [show c.addAll (item :: rest) = (c.add item).addAll rest from rfl, hitems,
        show (c.add item).items = c.items ++ [(item.numbered c.nextUid).1] from rfl,
        List.append_assoc, List.singleton_append]
    · rw [List.map_cons, List.map_cons, hdetached, Item.detached_numbered]
    · intro hzero
      rw [List.forall_mem_cons] at hzero ⊢
      refine ⟨Nat.le_of_eq (Item.uid_numbered_of_eq_zero c.nextUid hzero.1).symm, ?_⟩
      intro other hother
      exact Nat.le_trans (nextUid_le_add c item) (hnew hzero.2 other hother)

/-- Dropping numbers that occur in no child drops the top-level items with these numbers. -/
theorem items_removeAll {uids : List Uid}
    (h : ∀ u ∈ uids, ∀ item ∈ c.items, u ∉ Forest.uids item.children) :
    (c.removeAll uids).items = c.items.filter (·.uid ∉ uids) := by
  induction uids generalizing c with
  | nil => simp [removeAll]
  | cons u us ih =>
    have hfirst : (c.remove u).items = c.items.filter (·.uid ≠ u) :=
      Forest.without_eq_filter (h u List.mem_cons_self)
    have hlater : ∀ v ∈ us, ∀ item ∈ (c.remove u).items, v ∉ Forest.uids item.children := by
      intro v hv item hitem
      rw [hfirst] at hitem
      exact h v (List.mem_cons_of_mem _ hv) item (List.mem_filter.1 hitem).1
    rw [show c.removeAll (u :: us) = (c.remove u).removeAll us from rfl, ih hlater, hfirst,
      List.filter_filter]
    refine List.filter_congr fun item _ => ?_
    simp [Bool.and_comm]

/-- Dropping the numbers of some top-level items drops these items. -/
theorem Identified.items_removeAll (h : c.Identified) {uids : List Uid}
    (huids : ∀ u ∈ uids, ∃ item ∈ c.items, item.uid = u) :
    (c.removeAll uids).items = c.items.filter (·.uid ∉ uids) := by
  refine Cart.items_removeAll fun u hu other hother => ?_
  obtain ⟨item, hitem, rfl⟩ := huids u hu
  exact h.uid_notMem_children hitem hother

/-- An item in the place of a top-level one leaves the others as they are. -/
theorem Identified.items_replace (h : c.Identified) {old new : Item} (hold : old ∈ c.items)
    (huid : new.uid = old.uid) :
    (c.replace new).items =
      c.items.map fun item => if item.uid = new.uid then (new.numbered c.nextUid).1 else item := by
  have hne : new.uid ≠ 0 := huid ▸ h.uid_ne_zero hold
  have hplaced : (new.numbered c.nextUid).1.uid = new.uid := Item.uid_numbered c.nextUid hne
  rw [show (c.replace new).items = Forest.replacing (new.numbered c.nextUid).1 c.items from rfl,
    Forest.replacing_eq_map, hplaced]
  intro item hitem
  rw [hplaced, huid]
  exact h.uid_notMem_children hold hitem

/-! ## Properties of all items -/

section
variable {P : Item → Prop} (hP : ∀ item, P item.detached ↔ P item)
include hP

/-- What holds of the items of a cart and of the added ones holds of all. -/
theorem forall_items_addAll {items : List Item} (hc : ∀ item ∈ c.items, P item)
    (hitems : ∀ item ∈ items, P item) : ∀ item ∈ (c.addAll items).items, P item := by
  obtain ⟨placed, heq, hdetached, -⟩ := c.items_addAll items
  intro item hitem
  rw [heq, List.mem_append] at hitem
  rcases hitem with hitem | hitem
  · exact hc item hitem
  · have hmem := hdetached ▸ List.mem_map_of_mem (f := Item.detached) hitem
    obtain ⟨new, hnew, hsame⟩ := List.mem_map.1 hmem
    rw [← hP, ← hsame, hP]
    exact hitems new hnew

omit hP in
/-- What holds of the items of a cart holds of those that are left. -/
theorem Identified.forall_items_removeAll (h : c.Identified) {uids : List Uid}
    (huids : ∀ u ∈ uids, ∃ item ∈ c.items, item.uid = u) (hc : ∀ item ∈ c.items, P item) :
    ∀ item ∈ (c.removeAll uids).items, P item := by
  intro item hitem
  rw [h.items_removeAll huids] at hitem
  exact hc item (List.mem_filter.1 hitem).1

/-- What holds of the items of a cart and of the replacement holds of all. -/
theorem Identified.forall_items_replace (h : c.Identified) {old new : Item}
    (hold : old ∈ c.items) (huid : new.uid = old.uid) (hc : ∀ item ∈ c.items, P item)
    (hnew : P new) : ∀ item ∈ (c.replace new).items, P item := by
  intro item hitem
  rw [h.items_replace hold huid] at hitem
  obtain ⟨other, hother, rfl⟩ := List.mem_map.1 hitem
  split
  · rwa [← hP, Item.detached_numbered, hP]
  · exact hc other hother

end

end Cart

end SpokenOrder
