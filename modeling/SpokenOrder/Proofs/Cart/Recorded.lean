import SpokenOrder.CoffeeShop
import SpokenOrder.Proofs.Intent.TakenOff

/-!
# Records of removed defaults

When an option is taken off an item of a cart and the item is put back, the cart holds an item whose
children are known exactly (`Menu.Leaves`). If the option was a default, one of them is the record
that it was removed. From then on a reference finds the record and not the untouched default, so to
take the default off once more changes nothing, and whatever else is taken off the item, the record
stays the only one (`Menu.Recorded.step`, `Menu.Recorded.run`). The main result collects this for
the options that a reference lists (`Scene.takenOff_optionTargets`).
-/

namespace SpokenOrder

/-! ## Items -/

namespace Item

variable {item other : Item} {pid : Pid}

theorem with_quantity_eq {n : Nat} (h : item.quantity = n) :
    { item with quantity := n } = item := by
  cases item; cases h; rfl

theorem with_children_eq {children : List Item} (h : item.children = children) :
    { item with children } = item := by
  cases item; cases h; rfl

/-- The numbers of the children that are variants of an option. -/
def variants (item : Item) (pid : Pid) : List Uid :=
  (item.children.filter (·.key.pid = pid)).map uid

/-- The numbers of the variants of an option are those of the children that are variants of it. -/
theorem mem_variants_iff {u : Uid} : u ∈ item.variants pid ↔
    ∃ child ∈ item.children, child.key.pid = pid ∧ child.uid = u := by
  simp [variants, and_assoc]

/-- Items that look alike have variants with the same numbers. -/
theorem LooksLike.variants_eq (h : item.LooksLike other) (pid : Pid) :
    item.variants pid = other.variants pid := by
  have hfilter := h.map_bare_filter (p := fun child => child.key.pid = pid) fun _ => rfl
  have huids := congrArg (List.map uid) hfilter
  rw [List.map_map, List.map_map] at huids
  exact huids

end Item

/-! ## Items of a cart -/

namespace Cart

variable {c : Cart} {item new : Item}

/-- The cart has the item under its number, the numbers of the item have been given out, and they
tell its children apart. -/
structure Holds (c : Cart) (item : Item) : Prop where
  find?_eq : c.find? item.uid = some item
  nodup : (item.children.map Item.uid).Nodup
  ne_zero : ∀ u ∈ item.uids, u ≠ 0
  lt_nextUid : ∀ u ∈ item.uids, u < c.nextUid

/-- A cart in which numbers identify items holds each of them. -/
theorem Identified.holds (h : c.Identified) (hitem : item ∈ c.items) : c.Holds item := by
  have huids : item.uids.Sublist c.uids := Forest.uids_sublist_of_mem hitem
  refine ⟨Forest.find?_of_mem h.nodup hitem, ?_, fun u hu => h.ne_zero u (huids.subset hu),
    fun u hu => h.lt_nextUid u (huids.subset hu)⟩
  have hchildren : (item.children.map Item.uid).Sublist item.uids := by
    rw [Item.uids_eq]
    exact (Forest.map_uid_sublist _).cons _
  exact (h.nodup.sublist huids).sublist hchildren

theorem Holds.uid_ne_zero (h : c.Holds item) : item.uid ≠ 0 := h.ne_zero _ item.uid_mem_uids

theorem Holds.nextUid_pos (h : c.Holds item) : 0 < c.nextUid :=
  Nat.zero_lt_of_lt (h.lt_nextUid _ item.uid_mem_uids)

theorem Holds.child_ne_zero (h : c.Holds item) : ∀ child ∈ item.children, child.uid ≠ 0 :=
  fun _ hchild => h.ne_zero _ (Item.uid_child_mem_uids hchild)

/-- What is put in the place of an item is found there, with all its numbers. -/
theorem Holds.find?_replace (h : c.Holds item) (huid : new.uid = item.uid) :
    (c.replace new).find? item.uid = some (new.numbered c.nextUid).1 := by
  have hplaced : (new.numbered c.nextUid).1.uid = item.uid := by
    rw [Item.uid_numbered _ (huid ▸ h.uid_ne_zero), huid]
  have hfound : Forest.find? item.uid c.items = some item := h.find?_eq
  have hreplaced := Forest.find?_replacing (new.numbered c.nextUid).1 c.items
  rw [hplaced, hfound] at hreplaced
  exact hreplaced

/-- To put an item again where it was just put changes nothing. -/
theorem replace_numbered (hplaced : ∀ u ∈ (new.numbered c.nextUid).1.uids, u ≠ 0) :
    (c.replace new).replace (new.numbered c.nextUid).1 = c.replace new := by
  simp only [replace, Item.numbered_of_ne_zero hplaced, Forest.replacing_replacing]

end Cart

/-! ## What an option leaves behind -/

namespace Menu

variable {menu : Menu} {c d : Cart} {item option left record : Item} {next free : Uid}

/-- A default option has another number than an option that is none. -/
theorem HasOption.uid_ne_of_isDefault {child : Item} (h : menu.HasOption item option)
    (hnodup : (item.children.map Item.uid).Nodup)
    (hplaced : ∀ child ∈ item.children, child.uid ≠ 0)
    (hplain : menu.catalog.isDefaultOption item.key.pid option.key.pid = false)
    (hchild : child ∈ item.children)
    (hdefault : menu.catalog.isDefaultOption item.key.pid child.key.pid = true) :
    child.uid ≠ option.uid := by
  intro huid
  obtain rfl : child = option := h.eq_of_uid_eq hnodup hchild (hplaced child hchild) huid
  rw [hdefault] at hplain
  cases hplain

/-- The item that is left in a cart when an option is taken off, and the next number to give out. -/
inductive Leaves (menu : Menu) (next : Uid) (item option : Item) : Item → Uid → Prop
  | recorded {before after : List Item} :
      menu.catalog.isDefaultOption item.key.pid option.key.pid = true →
      item.children = before ++ option :: after →
      Leaves menu next item option
        { item with children := before ++ { option with quantity := 0 } :: after } next
  | untouched : menu.UntouchedDefault item option →
      Leaves menu next item option
        { item with children := item.children ++ [⟨next, option.key, 0, []⟩] } (next + 1)
  | dropped : menu.catalog.isDefaultOption item.key.pid option.key.pid = false →
      Leaves menu next item option
        { item with children := item.children.filter (·.uid != option.uid) } next

/-- Only the record of an untouched default needs a number. -/
theorem leaves_withoutOption (h : c.Holds item) (hoption : menu.HasOption item option) :
    menu.Leaves c.nextUid item option
      ((menu.withoutOption item option).numbered c.nextUid).1
      ((menu.withoutOption item option).numbered c.nextUid).2 := by
  cases hdefault : menu.catalog.isDefaultOption item.key.pid option.key.pid with
  | false =>
    have hplaced : ∀ u ∈ (menu.withoutOption item option).uids, u ≠ 0 := by
      intro u hu
      rw [withoutOption_of_not_default hdefault, Item.uids_eq] at hu
      refine h.ne_zero u ?_
      rw [Item.uids_eq]
      exact ((Forest.uids_sublist List.filter_sublist).cons_cons _).subset hu
    rw [Item.numbered_of_ne_zero hplaced, withoutOption_of_not_default hdefault]
    exact .dropped hdefault
  | true =>
    rcases hoption with hmem | huntouched
    · obtain ⟨before, after, hchildren, heq⟩ :=
        withoutOption_of_mem hdefault h.nodup h.child_ne_zero hmem
      have hplaced : ∀ u ∈ (menu.withoutOption item option).uids, u ≠ 0 := by
        have huids : (menu.withoutOption item option).uids = item.uids := by
          simp only [heq, Item.uids_eq, hchildren, Forest.uids_append, Forest.uids_cons]
        rw [huids]
        exact h.ne_zero
      rw [Item.numbered_of_ne_zero hplaced, heq]
      exact .recorded hdefault hchildren
    · have hbelow : ∀ u ∈ Forest.uids item.children, u ≠ 0 := by
        intro u hu
        refine h.ne_zero u ?_
        rw [Item.uids_eq]
        exact List.mem_cons_of_mem _ hu
      have hnumbered : (menu.withoutOption item option).numbered c.nextUid =
          ({ item with children := item.children ++ [⟨c.nextUid, option.key, 0, []⟩] },
            c.nextUid + 1) := by
        rw [withoutOption_of_untouched huntouched, huntouched.fresh]
        simp only [Item.numbered, Forest.numbered_concat hbelow, if_neg h.uid_ne_zero]
        rfl
      rw [hnumbered]
      exact .untouched huntouched

namespace Leaves

theorem uid_eq (h : menu.Leaves next item option left free) : left.uid = item.uid := by
  cases h <;> rfl

theorem key_eq (h : menu.Leaves next item option left free) : left.key = item.key := by
  cases h <;> rfl

/-- A number below the next one is below the next one still. -/
theorem le_free (h : menu.Leaves next item option left free) : next ≤ free := by
  cases h with
  | recorded | dropped => exact Nat.le_refl _
  | untouched => exact Nat.le_succ _

/-- The numbers of what is left are numbers of the item, apart from that of a new record. -/
theorem mem_uids (h : menu.Leaves next item option left free) {u : Uid} (hu : u ∈ left.uids) :
    u ∈ item.uids ∨ u = next ∧ next < free := by
  cases h with
  | recorded _ hchildren =>
    refine .inl ?_
    simpa only [Item.uids_eq, hchildren, Forest.uids_append, Forest.uids_cons] using hu
  | untouched =>
    simp only [Item.uids_eq, Forest.uids_append, List.mem_cons, List.mem_append] at hu ⊢
    rcases hu with hu | hu | hu
    · exact .inl (.inl hu)
    · exact .inl (.inr hu)
    · exact .inr ⟨List.mem_singleton.1 hu, Nat.lt_succ_self _⟩
  | dropped =>
    refine .inl ?_
    rw [Item.uids_eq] at hu ⊢
    exact ((Forest.uids_sublist List.filter_sublist).cons_cons _).subset hu

/-- Numbers tell the children that are left apart. -/
theorem nodup (h : menu.Leaves next item option left free)
    (hnodup : (item.children.map Item.uid).Nodup)
    (hlt : ∀ child ∈ item.children, child.uid < next) :
    (left.children.map Item.uid).Nodup := by
  cases h with
  | recorded _ hchildren => simpa only [hchildren, List.map_append, List.map_cons] using hnodup
  | untouched =>
    rw [List.map_append, List.map_singleton]
    refine List.nodup_append.2 ⟨hnodup, List.nodup_singleton _, fun u hu v hv => ?_⟩
    obtain ⟨child, hchild, rfl⟩ := List.mem_map.1 hu
    rw [List.mem_singleton.1 hv]
    exact Nat.ne_of_lt (hlt child hchild)
  | dropped => exact hnodup.sublist (List.filter_sublist.map _)

/-- A record stays, unless it is dropped by its number. -/
theorem mem_of_quantity_eq_zero (h : menu.Leaves next item option left free)
    (hmem : record ∈ item.children) (hzero : record.quantity = 0)
    (hdropped : menu.catalog.isDefaultOption item.key.pid option.key.pid = false →
      record.uid ≠ option.uid) : record ∈ left.children := by
  cases h with
  | @recorded before after _ hchildren =>
    rw [hchildren] at hmem
    rcases List.mem_append.1 hmem with hmem | hmem
    · exact List.mem_append_left _ hmem
    · refine List.mem_append_right _ ?_
      rcases List.mem_cons.1 hmem with rfl | hmem
      · -- The record itself is taken off, and is a record still.
        rw [Item.with_quantity_eq hzero]
        exact List.mem_cons_self
      · exact List.mem_cons_of_mem _ hmem
  | untouched => exact List.mem_append_left _ hmem
  | dropped hplain => exact List.mem_filter.2 ⟨hmem, by simpa using hdropped hplain⟩

/-- Where a variant is among the children, no other one joins it, and none goes unless it is dropped
by its number. -/
theorem variants_eq (h : menu.Leaves next item option left free) (hmem : record ∈ item.children)
    (hdropped : menu.catalog.isDefaultOption item.key.pid option.key.pid = false →
      ∀ child ∈ item.children, child.key.pid = record.key.pid → child.uid ≠ option.uid) :
    left.variants record.key.pid = item.variants record.key.pid := by
  cases h with
  | recorded _ hchildren => simp [Item.variants, hchildren, List.filter_cons, apply_ite]
  | untouched huntouched =>
    have hpid : option.key.pid ≠ record.key.pid := (huntouched.untouched record hmem).symm
    simp [Item.variants, hpid]
  | dropped hplain =>
    rw [Item.variants, Item.variants, List.filter_filter]
    refine congrArg _ (List.filter_congr fun child hchild => ?_)
    by_cases hpid : child.key.pid = record.key.pid
    · simp [hpid, hdropped hplain child hchild hpid]
    · simp [hpid]

end Leaves

/-- The cart in which an option was taken off an item holds what is left of the item, and to put
that in its place once more changes nothing. -/
theorem exists_leaves (h : c.Holds item) (hoption : menu.HasOption item option)
    (hd : d = c.replace (menu.withoutOption item option)) : ∃ left free,
      menu.Leaves c.nextUid item option left free ∧ d.Holds left ∧ d.replace left = d := by
  subst hd
  have hleaves := leaves_withoutOption h hoption
  have hplaced : ∀ u ∈ ((menu.withoutOption item option).numbered c.nextUid).1.uids, u ≠ 0 := by
    intro u hu
    rcases hleaves.mem_uids hu with hold | ⟨rfl, -⟩
    · exact h.ne_zero u hold
    · exact h.nextUid_pos.ne'
  refine ⟨_, _, hleaves, ⟨?_, ?_, hplaced, fun u hu => ?_⟩, Cart.replace_numbered hplaced⟩
  · rw [hleaves.uid_eq]
    exact h.find?_replace (uid_withoutOption _ _)
  · exact hleaves.nodup h.nodup fun child hchild =>
      h.lt_nextUid _ (Item.uid_child_mem_uids hchild)
  · rcases hleaves.mem_uids hu with hold | ⟨rfl, hlt⟩
    · exact Nat.lt_of_lt_of_le (h.lt_nextUid u hold) hleaves.le_free
    · exact hlt

/-! ## Records -/

/-- The cart holds an item, just as it would be put there, and one of its children is the record of
a default option. -/
structure Recorded (menu : Menu) (c : Cart) (item record : Item) : Prop where
  holds : c.Holds item
  replace_eq : c.replace item = c
  mem : record ∈ item.children
  quantity_eq : record.quantity = 0
  isDefault : menu.catalog.isDefaultOption item.key.pid record.key.pid = true

namespace Recorded

/-- An item is not changed when a recorded default is taken off it. -/
theorem withoutOption_eq (h : menu.Recorded c item record) :
    menu.withoutOption item record = item := by
  obtain ⟨before, after, hchildren, heq⟩ :=
    withoutOption_of_mem h.isDefault h.holds.nodup h.holds.child_ne_zero h.mem
  have hrecord : { record with quantity := 0 } = record := Item.with_quantity_eq h.quantity_eq
  rw [heq, hrecord, ← hchildren]
  exact Item.with_children_eq rfl

/-- An option of the kind that is recorded is a child. -/
theorem mem_of_pid_eq (h : menu.Recorded c item record) (hoption : menu.HasOption item option)
    (hpid : option.key.pid = record.key.pid) : option ∈ item.children :=
  hoption.resolve_right fun huntouched => huntouched.untouched record h.mem hpid.symm

/-- To take the recorded default off once more changes nothing. -/
theorem replace_withoutOption (h : menu.Recorded c item record) (hmem : option ∈ item.children)
    (huid : option.uid = record.uid) : c.replace (menu.withoutOption item option) = c := by
  obtain rfl : option = record := List.inj_on_of_nodup_map h.holds.nodup hmem h.mem huid
  rw [h.withoutOption_eq, h.replace_eq]

/-- Step lemma: whatever is taken off the item, the record stays, and no other variant of the
default joins it. -/
theorem step (h : menu.Recorded c item record) (hoption : menu.HasOption item option)
    (hd : d = c.replace (menu.withoutOption item option)) : ∃ left,
      menu.Recorded d left record ∧ left.uid = item.uid ∧
        left.variants record.key.pid = item.variants record.key.pid := by
  obtain ⟨left, free, hleaves, hholds, hreplace⟩ := exists_leaves h.holds hoption hd
  have hdropped (hplain : menu.catalog.isDefaultOption item.key.pid option.key.pid = false) :
      ∀ child ∈ item.children, child.key.pid = record.key.pid → child.uid ≠ option.uid :=
    fun child hchild hpid => hoption.uid_ne_of_isDefault h.holds.nodup h.holds.child_ne_zero hplain
      hchild (hpid ▸ h.isDefault)
  have hdefault : menu.catalog.isDefaultOption left.key.pid record.key.pid = true :=
    hleaves.key_eq ▸ h.isDefault
  have hmem : record ∈ left.children :=
    hleaves.mem_of_quantity_eq_zero h.mem h.quantity_eq
      fun hplain => hdropped hplain record h.mem rfl
  exact ⟨left, ⟨hholds, hreplace, hmem, h.quantity_eq, hdefault⟩, hleaves.uid_eq,
    hleaves.variants_eq h.mem hdropped⟩

end Recorded

/-- To take a default option off an item makes a record: the option itself if it was a child, or a
new child. -/
theorem exists_recorded (h : c.Holds item) (hoption : menu.HasOption item option)
    (hdefault : menu.catalog.isDefaultOption item.key.pid option.key.pid = true)
    (hd : d = c.replace (menu.withoutOption item option)) : ∃ left record,
      menu.Recorded d left record ∧ left.uid = item.uid ∧ record.key = option.key ∧
        (record.uid = option.uid ∧ left.LooksLike item ∨
          item.variants option.key.pid = [] ∧ left.variants option.key.pid = [record.uid]) := by
  obtain ⟨left, free, hleaves, hholds, hreplace⟩ := exists_leaves h hoption hd
  have hkey := hleaves.key_eq
  refine ⟨left, ?_⟩
  cases hleaves with
  | @recorded before after _ hchildren =>
    refine ⟨{ option with quantity := 0 }, ⟨hholds, hreplace, ?_, rfl, hdefault⟩, rfl, rfl,
      .inl ⟨rfl, rfl, ?_⟩⟩
    · exact List.mem_append_right _ List.mem_cons_self
    · rw [hchildren, List.map_append, List.map_append]
      rfl
  | untouched huntouched =>
    have hnone : item.children.filter (·.key.pid = option.key.pid) = [] := by
      simpa [List.filter_eq_nil_iff] using huntouched.untouched
    refine ⟨⟨c.nextUid, option.key, 0, []⟩, ⟨hholds, hreplace, ?_, rfl, hdefault⟩, rfl, rfl,
      .inr ⟨?_, ?_⟩⟩
    · exact List.mem_append_right _ List.mem_cons_self
    · rw [Item.variants, hnone, List.map_nil]
    · simp [Item.variants, hnone]
  | dropped hplain => rw [hplain] at hdefault; cases hdefault

/-- An option that words refer to is taken off the item that has the number. -/
inductive RemovesOption (menu : Menu) (u : Uid) : Cart → Cart → Prop
  | intro {α : Type} [Score α] {lattice : Lattice α} {span : Span} {c : Cart} {item : Item}
      {option : Scored Item} : c.find? u = some item →
      option ∈ (Scene.mk menu lattice).optionTargets item span →
      RemovesOption menu u c (c.replace (menu.withoutOption item option.value))

/-- Run lemma: whatever words take off the item, the record stays the only one. -/
theorem Recorded.run (h : menu.Recorded c item record)
    (hrun : Relation.ReflTransGen (menu.RemovesOption item.uid) c d) : ∃ left,
      menu.Recorded d left record ∧ left.uid = item.uid ∧
        left.variants record.key.pid = item.variants record.key.pid := by
  induction hrun with
  | refl => exact ⟨item, h, rfl, rfl⟩
  | tail _ hstep ih =>
    obtain ⟨left, hleft, huid, hvariants⟩ := ih
    cases hstep with
    | intro hfind hlisted =>
      rw [← huid, hleft.holds.find?_eq] at hfind
      cases hfind
      obtain ⟨last, hlast, huid', hvariants'⟩ :=
        hleft.step (Scene.hasOption_of_mem_optionTargets hlisted) rfl
      exact ⟨last, hlast, huid'.trans huid, hvariants'.trans hvariants⟩

/-- In the cart, what is left of `parent` shows for good that `option`, a default, was taken off:
there is a record of it. -/
structure StaysOff (menu : Menu) (parent option record : Item) (d : Cart) (left : Item) : Prop where
  find?_eq : d.find? parent.uid = some left
  mem : record ∈ left.children
  key_eq : record.key = option.key
  quantity_eq : record.quantity = 0
  /-- An untouched default has this one record, and otherwise nothing joins the variants that were
  among the children. -/
  variants_eq : left.variants option.key.pid = parent.variants option.key.pid ∨
    parent.variants option.key.pid = [] ∧ left.variants option.key.pid = [record.uid]
  /-- When words refer to the default again, to take it off changes nothing, unless they refer to
  another child of `parent` that is a variant of it. -/
  unchanged_or_other : ∀ {β : Type} [Score β] (later : Lattice β) (span : Span),
    ∀ again ∈ (Scene.mk menu later).optionTargets left span,
      again.value.key.pid = option.key.pid →
        d.replace (menu.withoutOption left again.value) = d ∨ ∃ other ∈ parent.children,
          other.key.pid = option.key.pid ∧ other.uid ≠ option.uid ∧ other.uid = again.value.uid

/-- A record by which the variants of an option are as before keeps the option taken off. -/
theorem Recorded.staysOff {parent : Item} (h : menu.Recorded d left record)
    (huid : left.uid = parent.uid) (hkey : record.key = option.key)
    (hvariants : record.uid = option.uid ∧
        left.variants option.key.pid = parent.variants option.key.pid ∨
      parent.variants option.key.pid = [] ∧ left.variants option.key.pid = [record.uid]) :
    menu.StaysOff parent option record d left where
  find?_eq := huid ▸ h.holds.find?_eq
  mem := h.mem
  key_eq := hkey
  quantity_eq := h.quantity_eq
  variants_eq := hvariants.imp_left (·.2)
  unchanged_or_other later span again hagain hpid := by
    have hmem : again.value ∈ left.children :=
      h.mem_of_pid_eq (Scene.hasOption_of_mem_optionTargets hagain) (hkey ▸ hpid)
    have hvariant : again.value.uid ∈ left.variants option.key.pid :=
      Item.mem_variants_iff.2 ⟨_, hmem, hpid, rfl⟩
    rcases hvariants with ⟨hsame, heq⟩ | ⟨-, hone⟩
    · rw [heq] at hvariant
      obtain ⟨other, hother, hotherPid, hotherUid⟩ := Item.mem_variants_iff.1 hvariant
      by_cases hrecord : again.value.uid = record.uid
      · exact .inl (h.replace_withoutOption hmem hrecord)
      · refine .inr ⟨other, hother, hotherPid, fun hne => hrecord ?_, hotherUid⟩
        rw [← hotherUid, hne, hsame]
    · rw [hone, List.mem_singleton] at hvariant
      exact .inl (h.replace_withoutOption hmem hvariant)

end Menu

namespace Scene

variable {α : Type} [Score α]

/-- Where numbers tell the children of an item apart, a reference to an option lists children and
untouched defaults, each at most once. Taking one of them off touches only this option. If it is a
default and what is left is put into a cart in the place of the item, the cart has a record of it,
and to take it off once more by the same words changes nothing. The record stays, whatever words
take off the item later. An untouched default never gets a second one, and another variant of the
default gets one of its own only if it was among the children before. -/
theorem takenOff_optionTargets (scene : Scene α) (parent : Item) (span : Span)
    (hnodup : (parent.children.map Item.uid).Nodup)
    (hplaced : ∀ child ∈ parent.children, child.uid ≠ 0) :
    ((scene.optionTargets parent span).Pairwise fun a b =>
      a.value.uid = b.value.uid → a.value.uid = 0 ∧ a.value.key.pid ≠ b.value.key.pid) ∧
    ∀ (i : Nat) (option : Scored Item), (scene.optionTargets parent span)[i]? = some option →
      (option.value ∈ parent.children ∨ scene.menu.UntouchedDefault parent option.value) ∧
      scene.menu.TakenOff parent option.value (scene.menu.withoutOption parent option.value) ∧
      ∀ c : Cart, c.Holds parent →
        scene.menu.catalog.isDefaultOption parent.key.pid option.value.key.pid = true →
        let d := c.replace (scene.menu.withoutOption parent option.value)
        ∃ left record, scene.menu.StaysOff parent option.value record d left ∧
          (∀ again : Scored Item, (scene.optionTargets left span)[i]? = some again →
            again.value.key.pid = option.value.key.pid →
              d.replace (scene.menu.withoutOption left again.value) = d) ∧
          ∀ e, Relation.ReflTransGen (scene.menu.RemovesOption parent.uid) d e →
            ∃ last, scene.menu.StaysOff parent option.value record e last := by
  refine ⟨scene.pairwise_optionTargets span hnodup, fun i option hoption => ?_⟩
  have hlisted : option ∈ scene.optionTargets parent span := List.mem_of_getElem? hoption
  have hhas := hasOption_of_mem_optionTargets hlisted
  refine ⟨hhas, Menu.takenOff_withoutOption hnodup hplaced hhas, fun c hc hdefault => ?_⟩
  obtain ⟨left, record, hrecorded, huid, hkey, hcases⟩ :=
    Menu.exists_recorded hc hhas hdefault rfl
  have hvariants : record.uid = option.value.uid ∧
        left.variants option.value.key.pid = parent.variants option.value.key.pid ∨
      parent.variants option.value.key.pid = [] ∧
        left.variants option.value.key.pid = [record.uid] :=
    hcases.imp_left fun ⟨hsame, hlooks⟩ => ⟨hsame, hlooks.variants_eq _⟩
  refine ⟨left, record, hrecorded.staysOff huid hkey hvariants, fun again hagain hpid => ?_,
    fun e he => ?_⟩
  · have hmem : again.value ∈ left.children := hrecorded.mem_of_pid_eq
      (hasOption_of_mem_optionTargets (List.mem_of_getElem? hagain)) (hkey ▸ hpid)
    refine hrecorded.replace_withoutOption hmem ?_
    rcases hcases with ⟨hsame, hlooks⟩ | ⟨-, hone⟩
    · -- The item looks as before, so the same words list the same options.
      have hbare := congrArg (·[i]?) (scene.map_bare_optionTargets span hlooks)
      simp only [List.getElem?_map, hagain, hoption, Option.map_some, Option.some_inj] at hbare
      rw [hsame]
      exact congrArg (·.value.uid) hbare
    · have hvariant : again.value.uid ∈ left.variants option.value.key.pid :=
        Item.mem_variants_iff.2 ⟨_, hmem, hpid, rfl⟩
      rwa [hone, List.mem_singleton] at hvariant
  · obtain ⟨last, hlast, huid', hlastVariants⟩ := hrecorded.run (huid.symm ▸ he)
    rw [hkey] at hlastVariants
    rw [← hlastVariants] at hvariants
    exact ⟨last, hlast.staysOff (huid'.trans huid) hkey hvariants⟩

/-- The word "milk", in a coffee shop. -/
def milkWord : Scene Float where
  menu := CoffeeShop.menu
  lattice := ⟨[[⟨.option CoffeeShop.milk "milk", 1, 1⟩]]⟩

/-- A cart with a latte with vanilla syrup. -/
def syrupLatte : Cart :=
  Cart.empty.add ⟨0, ⟨CoffeeShop.latte, 1⟩, 1, [.ofKey ⟨CoffeeShop.vanillaSyrup, 0⟩ 1]⟩

/-- The milk that the latte comes with is recorded as removed behind the syrup, and stays so. -/
theorem takenOff_optionTargets_syrupLatte :
    let latte : Item :=
      ⟨1, ⟨CoffeeShop.latte, 1⟩, 1, [⟨2, ⟨CoffeeShop.vanillaSyrup, 0⟩, 1, []⟩]⟩
    let milk := Item.ofKey ⟨CoffeeShop.milk, 0⟩ 1
    let d := syrupLatte.replace (CoffeeShop.menu.withoutOption latte milk)
    syrupLatte.items = [latte] ∧ milkWord.optionTargets latte ⟨0, 1⟩ = [⟨milk, 1, 1⟩] ∧
      (d.items.map fun item => item.children.map fun child =>
        (child.uid, child.key.pid, child.quantity)) =
          [[(2, CoffeeShop.vanillaSyrup, 1), (3, CoffeeShop.milk, 0)]] ∧
      syrupLatte.Holds latte ∧ (latte.children.map Item.uid).Nodup ∧
      (∀ child ∈ latte.children, child.uid ≠ 0) ∧
      CoffeeShop.menu.TakenOff latte milk (CoffeeShop.menu.withoutOption latte milk) ∧
      ∃ record, ∀ e, Relation.ReflTransGen (CoffeeShop.menu.RemovesOption 1) d e →
        ∃ last, CoffeeShop.menu.StaysOff latte milk record e last := by
  intro latte milk d
  have hitems : syrupLatte.items = [latte] := rfl
  have hwell : syrupLatte.WellNumbered := Cart.wellNumbered_empty.add (by decide)
  have hholds : syrupLatte.Holds latte :=
    hwell.toIdentified.holds (hitems ▸ List.mem_cons_self)
  have hfinds : milkWord.optionFinds latte ⟨0, 1⟩ = [⟨milk, 1, 1⟩] := rfl
  have hlisted : milkWord.optionTargets latte ⟨0, 1⟩ = [⟨milk, 1, 1⟩] := by
    rw [optionTargets_eq_ofFinds, hfinds]
    exact List.mergeSort_singleton _
  obtain ⟨-, heach⟩ :=
    takenOff_optionTargets milkWord latte ⟨0, 1⟩ hholds.nodup hholds.child_ne_zero
  obtain ⟨-, htakenOff, hstays⟩ := heach 0 ⟨milk, 1, 1⟩ (by rw [hlisted]; rfl)
  obtain ⟨_, record, -, -, hever⟩ := hstays syrupLatte hholds (by decide +kernel)
  exact ⟨hitems, hlisted, by decide +kernel, hholds, hholds.nodup, hholds.child_ne_zero, htakenOff,
    record, hever⟩

/-- The words "whole milk", in a coffee shop. -/
def wholeMilkWords : Scene Float where
  menu := CoffeeShop.menu
  lattice := ⟨[[⟨.attribute 30 "whole", 1, 1⟩], [⟨.option CoffeeShop.milk "milk", 1, 1⟩]]⟩

/-- A cart with a latte with whole milk and oat milk. -/
def twoMilkLatte : Cart :=
  Cart.empty.add
    ⟨0, ⟨CoffeeShop.latte, 1⟩, 1, [.ofKey ⟨CoffeeShop.milk, 0⟩ 1, .ofKey ⟨CoffeeShop.milk, 2⟩ 1]⟩

/-- Where two variants of a default are among the children, each can be recorded: the word "milk"
refers to the oat milk, and once that is off, the words "whole milk" make a second record. -/
theorem second_record_twoMilkLatte :
    let whole : Item := ⟨2, ⟨CoffeeShop.milk, 0⟩, 1, []⟩
    let oat : Item := ⟨3, ⟨CoffeeShop.milk, 2⟩, 1, []⟩
    let latte : Item := ⟨1, ⟨CoffeeShop.latte, 1⟩, 1, [whole, oat]⟩
    let left : Item := ⟨1, ⟨CoffeeShop.latte, 1⟩, 1, [whole, { oat with quantity := 0 }]⟩
    let d := twoMilkLatte.replace (CoffeeShop.menu.withoutOption latte oat)
    let e := d.replace (CoffeeShop.menu.withoutOption left whole)
    twoMilkLatte.items = [latte] ∧ (latte.children.map Item.uid).Nodup ∧
      (∀ child ∈ latte.children, child.uid ≠ 0) ∧
      CoffeeShop.menu.catalog.isDefaultOption CoffeeShop.latte CoffeeShop.milk = true ∧
      ⟨oat, 1, 1⟩ ∈ wholeMilkWords.optionTargets latte ⟨1, 1⟩ ∧ d.items = [left] ∧
      ⟨whole, 2, 2⟩ ∈ wholeMilkWords.optionTargets left ⟨0, 2⟩ ∧ e ≠ d ∧
      (e.items.map fun item => item.children.map fun child =>
        (child.uid, child.key.pid, child.quantity)) =
          [[(2, CoffeeShop.milk, 0), (3, CoffeeShop.milk, 0)]] := by
  intro whole oat latte left d e
  have hoat : Ranking.gather (wholeMilkWords.optionFinds latte ⟨1, 1⟩) =
      [⟨whole, 1, 1⟩, ⟨oat, 1, 1⟩] := rfl
  have hwhole : Ranking.gather (wholeMilkWords.optionFinds left ⟨0, 2⟩) =
      [⟨whole, 2, 2⟩, ⟨{ oat with quantity := 0 }, 1, 2⟩] := rfl
  have hd : d.items = [left] := rfl
  have he : (e.items.map fun item => item.children.map fun child =>
      (child.uid, child.key.pid, child.quantity)) =
        [[(2, CoffeeShop.milk, 0), (3, CoffeeShop.milk, 0)]] := rfl
  refine ⟨rfl, by decide, by decide, by decide +kernel, ?_, hd, ?_, fun heq => ?_, he⟩
  · rw [optionTargets_eq_ofFinds, (Ranking.ofFinds_perm _ _).mem_iff, hoat]
    exact List.mem_cons_of_mem _ List.mem_cons_self
  · rw [optionTargets_eq_ofFinds, (Ranking.ofFinds_perm _ _).mem_iff, hwhole]
    exact List.mem_cons_self
  · rw [heq, hd] at he
    exact absurd he (by decide)

end Scene

end SpokenOrder
