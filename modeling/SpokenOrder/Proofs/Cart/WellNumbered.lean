import SpokenOrder.Cart
import SpokenOrder.Proofs.Item.Splice

/-!
# Well-numbered carts

A cart is well numbered (`Cart.WellNumbered`) if its items and their descendants have distinct
numbers, none of them 0 and all of them given out already, and if the top-level items stand in the
order of their numbers. Adding items without numbers, dropping items, and exchanging an item for a
revision of it (`Item.Revises`) keep a cart well numbered. They also give out new numbers only
(`Cart.Precedes`), so a number that was dropped never returns.
-/

namespace SpokenOrder

/-- The numbers of the items of a cart and of their descendants. -/
def Cart.uids (c : Cart) : List Uid := Forest.uids c.items

/-- The numbers in the cart tell its items and their descendants apart, and all of them have been
given out. -/
structure Cart.Identified (c : Cart) : Prop where
  ne_zero : ∀ u ∈ c.uids, u ≠ 0
  nodup : c.uids.Nodup
  lt_nextUid : ∀ u ∈ c.uids, u < c.nextUid

/-- The numbers in the cart tell its items and their descendants apart, and the top-level items
stand in the order in which they were added. -/
structure Cart.WellNumbered (c : Cart) : Prop extends c.Identified where
  nextUid_pos : 0 < c.nextUid
  ascending : (c.items.map Item.uid).Pairwise (· < ·)

/-- The later cart `d` has given out no number of an earlier time anew: what has a number in `d`
either had it in `c` or got it since. -/
structure Cart.Precedes (c d : Cart) : Prop where
  nextUid_le : c.nextUid ≤ d.nextUid
  old_or_new : ∀ u ∈ d.uids, u ∈ c.uids ∨ c.nextUid ≤ u

/-- An edited copy of an item: it keeps the number, and each of its descendants is new or has the
number of one of the item's own descendants, no two the same. -/
structure Item.Revises (new old : Item) : Prop where
  uid_eq : new.uid = old.uid
  nodup : ((Forest.uids new.children).filter (· ≠ 0)).Nodup
  subset : ∀ u ∈ Forest.uids new.children, u ≠ 0 → u ∈ Forest.uids old.children

namespace Item.Revises

variable {new old : Item}

/-- The numbers of a revision, apart from those still to be given out, are numbers of the item. -/
theorem mem_uids (h : new.Revises old) : ∀ u ∈ new.uids, u ≠ 0 → u ∈ old.uids := by
  intro u hu h0
  rw [Item.uids_eq] at hu ⊢
  rcases List.mem_cons.1 hu with rfl | hu
  · exact h.uid_eq ▸ List.mem_cons_self
  · exact List.mem_cons_of_mem _ (h.subset u hu h0)

/-- If an item has distinct numbers, so has a revision of it, apart from those still to be given
out. -/
theorem nodup_uids (h : new.Revises old) (hold : old.uids.Nodup) :
    (new.uids.filter (· ≠ 0)).Nodup := by
  rw [Item.uids_eq] at hold ⊢
  obtain ⟨hroot, -⟩ := List.nodup_cons.1 hold
  by_cases h0 : new.uid = 0
  · rw [List.filter_cons_of_neg (by simpa using h0)]
    exact h.nodup
  · rw [List.filter_cons_of_pos (by simpa using h0)]
    refine List.nodup_cons.2 ⟨fun hmem => hroot ?_, h.nodup⟩
    exact h.uid_eq ▸ h.subset _ (List.mem_filter.1 hmem).1 h0

/-- Among other numbers, a revision in the place of the item brings in no number twice. -/
theorem nodup_exchange (h : new.Revises old) {before after : List Uid}
    (hnd : (before ++ old.uids ++ after).Nodup) :
    ((before ++ new.uids ++ after).filter (· ≠ 0)).Nodup := by
  obtain ⟨hleft, hafter, hdisj⟩ := List.nodup_append.1 hnd
  obtain ⟨hbefore, hold, hdisj'⟩ := List.nodup_append.1 hleft
  have hmem : ∀ u ∈ new.uids.filter (· ≠ 0), u ∈ old.uids := fun u hu => by
    obtain ⟨hu, h0⟩ := List.mem_filter.1 hu
    exact h.mem_uids u hu (by simpa using h0)
  rw [List.filter_append, List.filter_append]
  refine List.nodup_append.2 ⟨List.nodup_append.2 ⟨hbefore.filter _, h.nodup_uids hold, ?_⟩,
    hafter.filter _, ?_⟩
  · intro u hu v hv
    exact hdisj' u (List.mem_filter.1 hu).1 v (hmem v hv)
  · intro u hu v hv
    refine hdisj u ?_ v (List.mem_filter.1 hv).1
    rcases List.mem_append.1 hu with hu | hu
    · exact List.mem_append_left _ (List.mem_filter.1 hu).1
    · exact List.mem_append_right _ (hmem u hu)

end Item.Revises

namespace Cart

variable {c d e : Cart}

theorem Precedes.refl (c : Cart) : c.Precedes c := ⟨Nat.le_refl _, fun _ hu => .inl hu⟩

/-- A cart that precedes another one precedes all that come after that. -/
theorem Precedes.trans (h₁ : c.Precedes d) (h₂ : d.Precedes e) : c.Precedes e where
  nextUid_le := Nat.le_trans h₁.nextUid_le h₂.nextUid_le
  old_or_new u hu := by
    rcases h₂.old_or_new u hu with hd | hnew
    · exact h₁.old_or_new u hd
    · exact .inr (Nat.le_trans h₁.nextUid_le hnew)

/-- A number that was given out and is no longer in the cart is not in any later cart. -/
theorem Precedes.notMem (h : c.Precedes d) {u : Uid} (hlt : u < c.nextUid) (hu : u ∉ c.uids) :
    u ∉ d.uids := by
  intro hd
  rcases h.old_or_new u hd with hc | hle
  · exact hu hc
  · exact absurd hlt (Nat.not_lt.2 hle)

/-- In an empty cart, nothing can be numbered wrongly. -/
theorem wellNumbered_empty : empty.WellNumbered where
  ne_zero _ hu := nomatch hu
  nodup := .nil
  lt_nextUid _ hu := nomatch hu
  nextUid_pos := Nat.one_pos
  ascending := .nil

/-! ## Numbers given out by filling zeros -/

/-- A list of numbers in which the zeros can be filled from `next` on: the other numbers are
distinct and below `next`. -/
structure Fillable (next : Uid) (us : List Uid) : Prop where
  next_pos : 0 < next
  nodup : (us.filter (· ≠ 0)).Nodup
  lt_next : ∀ u ∈ us, u < next

/-- The top-level numbers apart, a cart whose numbers come from filling zeros is well numbered. -/
theorem wellNumbered_of_fillZeros {next : Uid} {us : List Uid} (h : Fillable next us)
    (hd : d.uids = fillZeros next us) (hnext : d.nextUid = next + us.count 0)
    (hasc : (d.items.map Item.uid).Pairwise (· < ·)) : d.WellNumbered where
  ne_zero u hu := by
    rw [hd] at hu
    rcases mem_fillZeros hu with ⟨-, h0⟩ | ⟨hle, -⟩
    · exact h0
    · exact Nat.ne_of_gt (Nat.lt_of_lt_of_le h.next_pos hle)
  nodup := hd ▸ nodup_fillZeros h.nodup h.lt_next
  lt_nextUid u hu := by
    rw [hd] at hu
    rw [hnext]
    rcases mem_fillZeros hu with ⟨hmem, -⟩ | ⟨-, hlt⟩
    · exact Nat.lt_add_right _ (h.lt_next u hmem)
    · exact hlt
  nextUid_pos := hnext ▸ Nat.add_pos_left h.next_pos _
  ascending := hasc

/-- A cart that filled the zeros among old numbers and zeros has reused no number. -/
theorem precedes_of_fillZeros {us : List Uid} (hold : ∀ u ∈ us, u ≠ 0 → u ∈ c.uids)
    (hd : d.uids = fillZeros c.nextUid us) (hnext : d.nextUid = c.nextUid + us.count 0) :
    c.Precedes d where
  nextUid_le := hnext ▸ Nat.le_add_right _ _
  old_or_new u hu := by
    rw [hd] at hu
    rcases mem_fillZeros hu with ⟨hmem, h0⟩ | ⟨hle, -⟩
    · exact .inl (hold u hmem h0)
    · exact .inr hle

/-! ## Adding -/

section add
variable {item : Item}

/-- An added item comes behind all others, and its missing numbers are filled in. -/
theorem uids_add (c : Cart) (item : Item) :
    (c.add item).uids = c.uids ++ fillZeros c.nextUid item.uids := by
  simp [add, uids, (Item.uids_numbered c.nextUid item).1]

/-- Each number that is filled in is used up. -/
theorem nextUid_add (c : Cart) (item : Item) :
    (c.add item).nextUid = c.nextUid + item.uids.count 0 :=
  (Item.uids_numbered c.nextUid item).2

/-- Adding an item never takes back a number. -/
theorem nextUid_le_add (c : Cart) (item : Item) : c.nextUid ≤ (c.add item).nextUid :=
  nextUid_add c item ▸ Nat.le_add_right _ _

/-- Nothing in a well-numbered cart lacks a number. -/
theorem WellNumbered.count_uids (h : c.WellNumbered) : c.uids.count 0 = 0 :=
  List.count_eq_zero.2 fun h0 => h.ne_zero 0 h0 rfl

/-- In a well-numbered cart only the zeros of the new item are filled. -/
theorem WellNumbered.uids_add (h : c.WellNumbered) (item : Item) :
    (c.add item).uids = fillZeros c.nextUid (c.uids ++ item.uids) := by
  rw [Cart.uids_add, fillZeros_append, fillZeros_of_ne_zero h.ne_zero, h.count_uids, Nat.add_zero]

/-- Adding an item that has no numbers yet keeps a cart well numbered. -/
theorem WellNumbered.add (h : c.WellNumbered) (hitem : ∀ u ∈ item.uids, u = 0) :
    (c.add item).WellNumbered := by
  have huid : item.uid = 0 := hitem _ item.uid_mem_uids
  have hfill : Fillable c.nextUid (c.uids ++ item.uids) := by
    refine ⟨h.nextUid_pos, ?_, fun u hu => ?_⟩
    · have hnone : item.uids.filter (· ≠ 0) = [] :=
        List.filter_eq_nil_iff.2 fun u hu => by simpa using hitem u hu
      rw [List.filter_append, hnone, List.append_nil]
      exact h.nodup.filter _
    · rcases List.mem_append.1 hu with hu | hu
      · exact h.lt_nextUid u hu
      · exact hitem u hu ▸ h.nextUid_pos
  refine wellNumbered_of_fillZeros hfill (h.uids_add item) ?_ ?_
  · rw [nextUid_add, List.count_append, h.count_uids, Nat.zero_add]
  · -- The new item has the number `nextUid`, which is above all others.
    have hroot := Item.uid_numbered_of_eq_zero c.nextUid huid
    rw [show (c.add item).items = c.items ++ [(item.numbered c.nextUid).1] from rfl,
      List.map_append, List.pairwise_append]
    refine ⟨h.ascending, List.pairwise_singleton _ _, fun u hu v hv => ?_⟩
    rw [List.map_singleton, List.mem_singleton, hroot] at hv
    rw [hv]
    exact h.lt_nextUid u ((Forest.map_uid_sublist c.items).subset hu)

/-- A cart precedes what a new item makes of it. -/
theorem WellNumbered.precedes_add (h : c.WellNumbered) (hitem : ∀ u ∈ item.uids, u = 0) :
    c.Precedes (c.add item) := by
  refine precedes_of_fillZeros (fun u hu h0 => ?_) (h.uids_add item) ?_
  · exact (List.mem_append.1 hu).resolve_right fun hu => h0 (hitem u hu)
  · rw [nextUid_add, List.count_append, h.count_uids, Nat.zero_add]

/-- Adding items that have no numbers yet, one after another. -/
theorem WellNumbered.addAll (h : c.WellNumbered) {items : List Item}
    (hitems : ∀ item ∈ items, ∀ u ∈ item.uids, u = 0) :
    (c.addAll items).WellNumbered ∧ c.Precedes (c.addAll items) := by
  induction items generalizing c with
  | nil => exact ⟨h, .refl c⟩
  | cons item rest ih =>
    have hitem := hitems item List.mem_cons_self
    obtain ⟨hrest, hprec⟩ := ih (h.add hitem) fun i hi => hitems i (List.mem_cons_of_mem _ hi)
    exact ⟨hrest, (h.precedes_add hitem).trans hprec⟩

end add

/-! ## Dropping -/

/-- Removing brings in no numbers. -/
theorem uids_remove (c : Cart) (u : Uid) : (c.remove u).uids.Sublist c.uids :=
  Forest.uids_without u c.items

/-- A cart precedes what is left when an item is removed. -/
theorem precedes_remove (c : Cart) (u : Uid) : c.Precedes (c.remove u) where
  nextUid_le := Nat.le_refl _
  old_or_new _ hv := .inl ((uids_remove c u).subset hv)

/-- Dropping an item or descendant keeps a cart well numbered. -/
theorem WellNumbered.remove (h : c.WellNumbered) (u : Uid) : (c.remove u).WellNumbered where
  ne_zero v hv := h.ne_zero v ((uids_remove c u).subset hv)
  nodup := h.nodup.sublist (uids_remove c u)
  lt_nextUid v hv := h.lt_nextUid v ((uids_remove c u).subset hv)
  nextUid_pos := h.nextUid_pos
  ascending := h.ascending.sublist (Forest.map_uid_without u c.items)

/-- Dropping several items, one after another. -/
theorem WellNumbered.removeAll (h : c.WellNumbered) (us : List Uid) :
    (c.removeAll us).WellNumbered ∧ c.Precedes (c.removeAll us) := by
  induction us generalizing c with
  | nil => exact ⟨h, .refl c⟩
  | cons u us ih =>
    obtain ⟨hrest, hprec⟩ := ih (h.remove u)
    exact ⟨hrest, (precedes_remove c u).trans hprec⟩

/-! ## Exchanging -/

section replace
variable {new old : Item}

/-- Each number that is filled in for a replacement is used up. -/
theorem nextUid_replace (c : Cart) (new : Item) :
    (c.replace new).nextUid = c.nextUid + new.uids.count 0 :=
  (Item.uids_numbered c.nextUid new).2

/-- Exchanging the found item `old` for `new` fills the zeros of `new` in the place of the numbers
of `old`. -/
theorem WellNumbered.uids_replace (h : c.WellNumbered) (hfind : c.find? new.uid = some old) :
    ∃ before after, c.uids = before ++ old.uids ++ after ∧
      (c.replace new).uids = fillZeros c.nextUid (before ++ new.uids ++ after) ∧
      (before ++ new.uids ++ after).count 0 = new.uids.count 0 := by
  have hmem : new.uid ∈ c.uids := by
    by_contra hnot
    rw [find?, Forest.find?_eq_none_iff.2 hnot] at hfind
    cases hfind
  have hplaced : (new.numbered c.nextUid).1.uid = new.uid :=
    Item.uid_numbered c.nextUid (h.ne_zero _ hmem)
  have hfind' : Forest.find? (new.numbered c.nextUid).1.uid c.items = some old := hplaced ▸ hfind
  obtain ⟨before, after, hc, hreplace⟩ := (Forest.splices_replacing h.nodup hfind').uids_eq
  rw [Forest.uids_cons, Forest.uids_nil, List.append_nil] at hreplace
  have hkept : ∀ u ∈ before ++ old.uids ++ after, u ≠ 0 := hc ▸ h.ne_zero
  simp only [List.mem_append] at hkept
  have hbefore : ∀ u ∈ before, u ≠ 0 := fun u hu => hkept u (.inl (.inl hu))
  have hafter : ∀ u ∈ after, u ≠ 0 := fun u hu => hkept u (.inr hu)
  have hcount : before.count 0 = 0 := List.count_eq_zero.2 fun h0 => hbefore 0 h0 rfl
  have hcount' : after.count 0 = 0 := List.count_eq_zero.2 fun h0 => hafter 0 h0 rfl
  refine ⟨before, after, hc, ?_, ?_⟩
  · rw [fillZeros_append, fillZeros_append, fillZeros_of_ne_zero hbefore,
      fillZeros_of_ne_zero hafter, hcount, Nat.add_zero, ← (Item.uids_numbered _ new).1]
    exact hreplace
  · rw [List.count_append, List.count_append, hcount, hcount', Nat.zero_add, Nat.add_zero]

/-- Exchanging an item for a revision of it keeps a cart well numbered, and gives out new numbers
only. -/
theorem WellNumbered.replace (h : c.WellNumbered) (hfind : c.find? new.uid = some old)
    (hrev : new.Revises old) : (c.replace new).WellNumbered ∧ c.Precedes (c.replace new) := by
  obtain ⟨before, after, hc, huids, hcount⟩ := h.uids_replace hfind
  have hnd : (before ++ old.uids ++ after).Nodup := hc ▸ h.nodup
  have hold : ∀ u ∈ before ++ new.uids ++ after, u ≠ 0 → u ∈ c.uids := by
    intro u hu h0
    rw [hc]
    simp only [List.mem_append] at hu ⊢
    exact hu.imp_left fun hu => hu.imp_right fun hu => hrev.mem_uids u hu h0
  have hnext : (c.replace new).nextUid = c.nextUid + (before ++ new.uids ++ after).count 0 := by
    rw [hcount, nextUid_replace]
  have hfill : Fillable c.nextUid (before ++ new.uids ++ after) := by
    refine ⟨h.nextUid_pos, ?_, fun u hu => ?_⟩
    · exact hrev.nodup_exchange hnd
    · by_cases h0 : u = 0
      · exact h0 ▸ h.nextUid_pos
      · exact h.lt_nextUid u (hold u hu h0)
  refine ⟨wellNumbered_of_fillZeros hfill huids hnext ?_, precedes_of_fillZeros hold huids hnext⟩
  rw [show (c.replace new).items = Forest.replacing (new.numbered c.nextUid).1 c.items from rfl,
    Forest.map_uid_replacing]
  exact h.ascending

end replace

end Cart

end SpokenOrder
