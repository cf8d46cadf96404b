import SpokenOrder.Intent.Remove
import SpokenOrder.Proofs.Phrase.Build
import SpokenOrder.Proofs.Reference.Targets

/-!
# Taking an option off an item

An option that a reference finds is taken off its item in one of three ways (`Menu.TakesOff`): a
default option among the children is recorded as removed, an untouched default is added as such a
record, and anything else is dropped. The item that is left is a revision of the item
(`Menu.revises_withoutOption`).
-/

namespace SpokenOrder.Menu

variable {menu : Menu} {parent option : Item}

/-- The child that has the number of an option is the option. -/
theorem HasOption.eq_of_uid_eq {child : Item} (h : menu.HasOption parent option)
    (hnd : (parent.children.map Item.uid).Nodup) (hmem : child ∈ parent.children)
    (hplaced : child.uid ≠ 0) (huid : child.uid = option.uid) : child = option := by
  rcases h with hthere | huntouched
  · exact List.inj_on_of_nodup_map hnd hmem hthere huid
  · rw [huntouched.fresh] at huid
    exact absurd huid hplaced

/-- What can become of the children of an item that an option is taken off. -/
inductive TakesOff (menu : Menu) (parent option : Item) : List Item → Prop
  | recorded {before after : List Item} {child : Item} :
      parent.children = before ++ child :: after → child.uid = option.uid →
      TakesOff menu parent option (before ++ { child with quantity := 0 } :: after)
  | untouched : menu.UntouchedDefault parent option →
      TakesOff menu parent option (parent.children ++ [{ option with quantity := 0 }])
  | dropped : menu.catalog.isDefaultOption parent.key.pid option.key.pid = false →
      TakesOff menu parent option (parent.children.filter (·.uid != option.uid))

/-- An option that a reference finds is taken off in one of the three ways, and nothing else about
the item changes. -/
theorem exists_takesOff (hplaced : ∀ child ∈ parent.children, child.uid ≠ 0)
    (hoption : menu.HasOption parent option) : ∃ children, menu.TakesOff parent option children ∧
      menu.withoutOption parent option = { parent with children } := by
  unfold withoutOption
  split
  · split
    · next i hfound =>
      obtain ⟨before, child, after, hchildren, rfl, hchild, -⟩ := exists_split_of_findIdx? hfound
      rw [Bool.and_eq_true, beq_iff_eq] at hchild
      rw [hchildren, modify_append_cons]
      exact ⟨_, .recorded hchildren hchild.2, rfl⟩
    · next hnotFound =>
      rcases hoption with hchild | huntouched
      · -- A child would have been found under its number.
        have hfound := List.findIdx?_eq_none_iff.1 hnotFound option hchild
        simp [hplaced option hchild] at hfound
      · exact ⟨_, .untouched huntouched, rfl⟩
  · next hdefault => exact ⟨_, .dropped (Bool.eq_false_iff.2 hdefault), rfl⟩

/-- The children that are left are old ones, or they are the record of a removed option. -/
theorem TakesOff.mem {children : List Item} {c : Item}
    (h : menu.TakesOff parent option children) (hc : c ∈ children) :
    c ∈ parent.children ∨
      c.quantity = 0 ∧ (c.children = [] ∨ ∃ child ∈ parent.children, c.children = child.children) := by
  cases h with
  | @recorded before after child hchildren _ =>
    rw [hchildren]
    rcases List.mem_append.1 hc with hc | hc
    · exact .inl (List.mem_append_left _ hc)
    · rcases List.mem_cons.1 hc with rfl | hc
      · exact .inr ⟨rfl, .inr ⟨child, List.mem_append_right _ List.mem_cons_self, rfl⟩⟩
      · exact .inl (List.mem_append_right _ (List.mem_cons_of_mem _ hc))
  | untouched huntouched =>
    rcases List.mem_append.1 hc with hc | hc
    · exact .inl hc
    · rw [List.mem_singleton.1 hc, huntouched.fresh]
      exact .inr ⟨rfl, .inl rfl⟩
  | dropped _ => exact .inl (List.mem_filter.1 hc).1

/-- The item without one of its options is a revision of the item. -/
theorem revises_withoutOption (hnd : parent.uids.Nodup)
    (hplaced : ∀ child ∈ parent.children, child.uid ≠ 0) (hoption : menu.HasOption parent option) :
    (menu.withoutOption parent option).Revises parent := by
  obtain ⟨children, htakes, heq⟩ := exists_takesOff hplaced hoption
  rw [heq]
  refine Item.revises_of_sublist hnd rfl ?_
  cases htakes with
  | @recorded before after child hchildren _ =>
    rw [hchildren, Forest.placedUids_append, Forest.placedUids_append,
      Forest.placedUids_cons child, Forest.placedUids_cons { child with quantity := 0 }]
    cases child
    exact .refl _
  | untouched huntouched =>
    rw [Forest.placedUids_append, huntouched.fresh]
    simp [Forest.placedUids, Item.ofKey, Item.uids]
  | dropped _ => exact (Forest.uids_sublist List.filter_sublist).filter _

/-- An item keeps its number when an option is taken off. -/
@[simp] theorem uid_withoutOption (parent option : Item) :
    (menu.withoutOption parent option).uid = parent.uid := by
  unfold withoutOption
  split
  · split <;> rfl
  · rfl

/-- It keeps its key. -/
@[simp] theorem key_withoutOption (parent option : Item) :
    (menu.withoutOption parent option).key = parent.key := by
  unfold withoutOption
  split
  · split <;> rfl
  · rfl

/-- It keeps its quantity. -/
@[simp] theorem quantity_withoutOption (parent option : Item) :
    (menu.withoutOption parent option).quantity = parent.quantity := by
  unfold withoutOption
  split
  · split <;> rfl
  · rfl

end SpokenOrder.Menu
