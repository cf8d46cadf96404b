import SpokenOrder.Proofs.Intent.Option
import SpokenOrder.Proofs.Reference.Options

/-!
# One option at a time

Where numbers tell the children of an item apart, an option that a reference finds can be taken off
without a trace on the other children (`Menu.takenOff_withoutOption`). A default among the children
is recorded as removed in its place, an untouched default behind the children, and anything else is
gone.
-/

namespace SpokenOrder

/-- What is left of an item when one option is taken off. -/
structure Menu.TakenOff (menu : Menu) (parent option left : Item) : Prop where
  uid_eq : left.uid = parent.uid
  key_eq : left.key = parent.key
  quantity_eq : left.quantity = parent.quantity
  /-- The other children are unchanged and in order. -/
  others : left.children.filter (·.uid ≠ option.uid) = parent.children.filter (·.uid ≠ option.uid)
  /-- A default option is there once, with the quantity 0. -/
  recorded : menu.catalog.isDefaultOption parent.key.pid option.key.pid = true →
    left.children.filter (·.uid = option.uid) = [{ option with quantity := 0 }]
  /-- If it was a child, it is in its place. -/
  inPlace : menu.catalog.isDefaultOption parent.key.pid option.key.pid = true →
    option ∈ parent.children → left.LooksLike parent
  /-- If it was untouched, it is behind the others. -/
  appended : menu.UntouchedDefault parent option →
    left.children = parent.children ++ [{ option with quantity := 0 }]
  /-- Any other option is gone. -/
  dropped : menu.catalog.isDefaultOption parent.key.pid option.key.pid = false →
    ∀ child ∈ left.children, child.uid ≠ option.uid

/-- Around one of some items that numbers tell apart, no other has its number. -/
theorem Forest.filter_uid_around {before after : Forest} {item : Item}
    (hnodup : ((before ++ item :: after).map Item.uid).Nodup) :
    before.filter (·.uid = item.uid) = [] ∧ after.filter (·.uid = item.uid) = [] := by
  rw [List.map_append, List.map_cons, List.nodup_middle, List.nodup_cons, List.mem_append] at hnodup
  have hnot := not_or.1 hnodup.1
  simp only [List.filter_eq_nil_iff, decide_eq_true_eq]
  exact ⟨fun other hother huid => hnot.1 (huid ▸ List.mem_map_of_mem hother),
    fun other hother huid => hnot.2 (huid ▸ List.mem_map_of_mem hother)⟩

namespace Menu

variable {menu : Menu} {parent option : Item}

/-- A default option among the children is recorded as removed in its place. -/
theorem withoutOption_of_mem
    (hdefault : menu.catalog.isDefaultOption parent.key.pid option.key.pid = true)
    (hnodup : (parent.children.map Item.uid).Nodup)
    (hplaced : ∀ child ∈ parent.children, child.uid ≠ 0) (hmem : option ∈ parent.children) :
    ∃ before after, parent.children = before ++ option :: after ∧
      menu.withoutOption parent option =
        { parent with children := before ++ { option with quantity := 0 } :: after } := by
  rw [withoutOption, if_pos hdefault]
  split
  · next i hfound =>
    obtain ⟨before, child, after, hchildren, rfl, hchild, -⟩ := exists_split_of_findIdx? hfound
    rw [Bool.and_eq_true, beq_iff_eq] at hchild
    have hthere : child ∈ parent.children :=
      hchildren ▸ List.mem_append_right _ List.mem_cons_self
    obtain rfl : child = option := List.inj_on_of_nodup_map hnodup hthere hmem hchild.2
    exact ⟨before, after, hchildren, by rw [hchildren, modify_append_cons]⟩
  · next hnone =>
    have hnot := List.findIdx?_eq_none_iff.1 hnone option hmem
    simp [hplaced option hmem] at hnot

/-- An untouched default is recorded as removed behind the children. -/
theorem withoutOption_of_untouched (h : menu.UntouchedDefault parent option) :
    menu.withoutOption parent option =
      { parent with children := parent.children ++ [{ option with quantity := 0 }] } := by
  have hfresh : option.uid = 0 := by rw [h.fresh]; rfl
  rw [withoutOption, if_pos h.isDefault]
  split
  · next i hfound =>
    obtain ⟨-, child, -, -, -, hchild, -⟩ := exists_split_of_findIdx? hfound
    simp [hfresh] at hchild
  · rfl

/-- Any other option is dropped. -/
theorem withoutOption_of_not_default
    (hdefault : menu.catalog.isDefaultOption parent.key.pid option.key.pid = false) :
    menu.withoutOption parent option =
      { parent with children := parent.children.filter (·.uid != option.uid) } := by
  rw [withoutOption, if_neg (Bool.eq_false_iff.1 hdefault)]

/-- A default option among the children is taken off in its place. -/
theorem takenOff_of_mem
    (hdefault : menu.catalog.isDefaultOption parent.key.pid option.key.pid = true)
    (hnodup : (parent.children.map Item.uid).Nodup)
    (hplaced : ∀ child ∈ parent.children, child.uid ≠ 0) (hmem : option ∈ parent.children) :
    menu.TakenOff parent option (menu.withoutOption parent option) := by
  obtain ⟨before, after, hchildren, heq⟩ := withoutOption_of_mem hdefault hnodup hplaced hmem
  obtain ⟨hbefore, hafter⟩ := Forest.filter_uid_around (hchildren ▸ hnodup)
  have hbare : (menu.withoutOption parent option).children.map Item.bare =
      parent.children.map Item.bare := by
    rw [heq, hchildren, List.map_append, List.map_append]
    rfl
  exact {
    uid_eq := uid_withoutOption _ _
    key_eq := key_withoutOption _ _
    quantity_eq := quantity_withoutOption _ _
    others := by simp [heq, hchildren]
    recorded := fun _ => by simp [heq, hbefore, hafter]
    inPlace := fun _ _ => ⟨by rw [key_withoutOption], hbare⟩
    appended := fun h => absurd rfl (h.untouched option hmem)
    dropped := fun h => nomatch hdefault.symm.trans h }

/-- An untouched default option is taken off behind the children. -/
theorem takenOff_of_untouched (hplaced : ∀ child ∈ parent.children, child.uid ≠ 0)
    (h : menu.UntouchedDefault parent option) :
    menu.TakenOff parent option (menu.withoutOption parent option) := by
  have hfresh : option.uid = 0 := by rw [h.fresh]; rfl
  have hnone : parent.children.filter (·.uid = option.uid) = [] := by
    simp only [List.filter_eq_nil_iff, decide_eq_true_eq, hfresh]
    exact hplaced
  have heq := withoutOption_of_untouched h
  exact {
    uid_eq := uid_withoutOption _ _
    key_eq := key_withoutOption _ _
    quantity_eq := quantity_withoutOption _ _
    others := by simp [heq]
    recorded := fun _ => by simp [heq, hnone]
    inPlace := fun _ hmem => absurd rfl (h.untouched option hmem)
    appended := fun _ => by rw [heq]
    dropped := fun hdefault => nomatch h.isDefault.symm.trans hdefault }

/-- An option that is no default is taken off by dropping it. -/
theorem takenOff_of_not_default
    (hdefault : menu.catalog.isDefaultOption parent.key.pid option.key.pid = false) :
    menu.TakenOff parent option (menu.withoutOption parent option) where
  uid_eq := uid_withoutOption _ _
  key_eq := key_withoutOption _ _
  quantity_eq := quantity_withoutOption _ _
  others := by
    rw [withoutOption_of_not_default hdefault, List.filter_filter]
    exact List.filter_congr fun child _ => by simp
  recorded h := nomatch hdefault.symm.trans h
  inPlace h := nomatch hdefault.symm.trans h
  appended h := nomatch hdefault.symm.trans h.isDefault
  dropped _ child hchild := by
    rw [withoutOption_of_not_default hdefault, List.mem_filter, bne_iff_ne] at hchild
    exact hchild.2

/-- Taking an option off an item touches only this option. -/
theorem takenOff_withoutOption (hnodup : (parent.children.map Item.uid).Nodup)
    (hplaced : ∀ child ∈ parent.children, child.uid ≠ 0) (hoption : menu.HasOption parent option) :
    menu.TakenOff parent option (menu.withoutOption parent option) := by
  cases hdefault : menu.catalog.isDefaultOption parent.key.pid option.key.pid with
  | false => exact takenOff_of_not_default hdefault
  | true =>
    rcases hoption with hmem | huntouched
    · exact takenOff_of_mem hdefault hnodup hplaced hmem
    · exact takenOff_of_untouched hplaced huntouched

end Menu

end SpokenOrder
