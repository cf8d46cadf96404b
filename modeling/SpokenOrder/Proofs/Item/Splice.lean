import SpokenOrder.Proofs.Item.Uids

/-!
# One place in a forest

To drop an item, or to put another in its place, changes a forest in one place. `Forest.Splices`
says so: what stands in that place is exchanged, and all else is the same. Where numbers tell the
items of a forest apart, dropping a number (`Forest.splices_without`) and putting an item in the
place of another (`Forest.splices_replacing`) are splices at the item that is found under the
number. What is found under a number outside the place is the same as before, up to the splice
itself if that lies below it (`Forest.Splices.exists_found`).
-/

namespace SpokenOrder

/-- Where the item `old` stands in the one forest, at the top or below an item, the items `new`
stand in the other. All else is the same. -/
inductive Forest.Splices (old : Item) (new : Forest) : Forest → Forest → Prop
  | here (before after : Forest) :
      Splices old new (before ++ old :: after) (before ++ new ++ after)
  | inside {children : Forest} (before : Forest) (item : Item) (after : Forest) :
      Splices old new item.children children →
      Splices old new (before ++ item :: after) (before ++ { item with children } :: after)

/-- What becomes of an item outside the place of a splice: it stays what it is, unless `old` is one
of its descendants, and then only its children change. -/
inductive Item.Follows (item old : Item) (new : Forest) : Item → Prop
  | same : old.uid ∉ item.uids → Follows item old new item
  | above {children : Forest} : Forest.Splices old new item.children children →
      Follows item old new { item with children }

/-! ## Forests side by side -/

/-- An item is found at itself or among its children. -/
theorem Item.find?_eq (u : Uid) (item : Item) :
    item.find? u = if item.uid = u then some item else Forest.find? u item.children := by
  cases item; rfl

/-- What two forests hold is found in the first one first. -/
theorem Forest.find?_append (u : Uid) (f g : Forest) :
    Forest.find? u (f ++ g) = (Forest.find? u f).or (Forest.find? u g) := by
  induction f with
  | nil => rfl
  | cons item rest ih => rw [List.cons_append, Forest.find?, Forest.find?, ih, Option.or_assoc]

/-- An item is taken out of each of two forests. -/
theorem Forest.without_append (u : Uid) (f g : Forest) :
    Forest.without u (f ++ g) = Forest.without u f ++ Forest.without u g := by
  induction f with
  | nil => rfl
  | cons item rest ih =>
    rw [List.cons_append, Forest.without, Forest.without, ih]
    split
    · rfl
    · rw [List.cons_append]

/-- An item is replaced in each of two forests. -/
theorem Forest.replacing_append (new : Item) (f g : Forest) :
    Forest.replacing new (f ++ g) = Forest.replacing new f ++ Forest.replacing new g := by
  induction f with
  | nil => rfl
  | cons item rest ih =>
    rw [List.cons_append, Forest.replacing, Forest.replacing, ih, List.cons_append]

mutual

/-- What is found in an item is a part of it, so its numbers are some of the numbers. -/
theorem Item.uids_sublist_of_find? {u : Uid} {found : Item} : ∀ {item : Item},
    item.find? u = some found → found.uids.Sublist item.uids
  | ⟨v, key, quantity, children⟩, h => by
    rw [Item.find?] at h
    split at h
    · cases h; exact .refl _
    · exact (Forest.uids_sublist_of_find? h).cons _

/-- What is found in a forest is a part of it. -/
theorem Forest.uids_sublist_of_find? {u : Uid} {found : Item} : ∀ {f : Forest},
    Forest.find? u f = some found → found.uids.Sublist (Forest.uids f)
  | item :: rest, h => by
    rw [Forest.find?, Option.or_eq_some_iff] at h
    rcases h with h | ⟨-, h⟩
    · exact (Item.uids_sublist_of_find? h).trans (List.sublist_append_left _ _)
    · exact (Forest.uids_sublist_of_find? h).trans (List.sublist_append_right _ _)

end

/-! ## Splices -/

namespace Forest

variable {old item : Item} {new f g before after : Forest} {u v : Uid}

namespace Splices

/-- A change in the rest of a forest is one in the forest. -/
theorem cons (h : Splices old new f g) (item : Item) :
    Splices old new (item :: f) (item :: g) := by
  cases h with
  | here before after => exact .here (item :: before) after
  | inside before parent after h => exact .inside (item :: before) parent after h

/-- A splice exchanges one segment of the numbers. -/
theorem uids_eq (h : Splices old new f g) : ∃ before after,
    uids f = before ++ old.uids ++ after ∧ uids g = before ++ uids new ++ after := by
  induction h with
  | here before after => exact ⟨uids before, uids after, by simp, by simp⟩
  | inside before parent after _ ih =>
    obtain ⟨left, right, hf, hg⟩ := ih
    refine ⟨uids before ++ parent.uid :: left, right ++ uids after, ?_, ?_⟩
    · simp [Item.uids_eq, hf]
    · simp [Item.uids_eq, hg]

/-- The item that is exchanged has its number in the forest. -/
theorem uid_mem_uids (h : Splices old new f g) : old.uid ∈ uids f := by
  obtain ⟨before, after, hf, -⟩ := h.uids_eq
  rw [hf]
  exact List.mem_append_left _ (List.mem_append_right _ old.uid_mem_uids)

/-- Below an item only what is a part of it can be spliced. -/
theorem uid_mem_uids_parent {children : Forest} (h : Splices old new item.children children) :
    old.uid ∈ item.uids := by
  rw [Item.uids_eq]
  exact List.mem_cons_of_mem _ h.uid_mem_uids

/-- A number in the changed forest was there or comes with the new items. -/
theorem mem_uids (h : Splices old new f g) (hv : v ∈ uids g) : v ∈ uids f ∨ v ∈ uids new := by
  obtain ⟨before, after, hf, hg⟩ := h.uids_eq
  simp only [hf, hg, List.mem_append] at hv ⊢
  rcases hv with (hv | hv) | hv
  · exact .inl (.inl (.inl hv))
  · exact .inr hv
  · exact .inl (.inr hv)

/-- The numbers that are in the place before a splice are gone after it, unless they come in again.
-/
theorem notMem_uids (h : Splices old new f g) (hnodup : (uids f).Nodup) (hold : v ∈ old.uids)
    (hnew : v ∉ uids new) : v ∉ uids g := by
  obtain ⟨before, after, hf, hg⟩ := h.uids_eq
  rw [hf] at hnodup
  obtain ⟨hleft, -, hafter⟩ := List.nodup_append.1 hnodup
  obtain ⟨-, -, hbefore⟩ := List.nodup_append.1 hleft
  rw [hg, List.mem_append, List.mem_append, not_or, not_or]
  exact ⟨⟨fun hv => hbefore v hv v hold rfl, hnew⟩,
    fun hv => hafter v (List.mem_append_right _ hold) v hv rfl⟩

end Splices

/-- Where numbers are distinct, those of a part of a forest occur nowhere else in it. -/
theorem notMem_uids_around (hnodup : (uids (before ++ item :: after)).Nodup) (hu : u ∈ item.uids) :
    u ∉ uids before ∧ u ∉ uids after := by
  rw [uids_append, uids_cons] at hnodup
  obtain ⟨-, hrest, hbefore⟩ := List.nodup_append.1 hnodup
  obtain ⟨-, -, hafter⟩ := List.nodup_append.1 hrest
  exact ⟨fun hv => hbefore u hv u (List.mem_append_left _ hu) rfl,
    fun hv => hafter u hu u hv rfl⟩

/-- The numbers of an item of a forest, and of its children, are distinct if all are. -/
theorem nodup_uids_children (hnodup : (uids (before ++ item :: after)).Nodup) :
    item.uid ∉ uids item.children ∧ (uids item.children).Nodup := by
  have hitem := hnodup.sublist (uids_sublist_of_mem (List.mem_append_right _ List.mem_cons_self))
  rw [Item.uids_eq] at hitem
  exact List.nodup_cons.1 hitem

mutual

/-- What is found below an item can be exchanged for anything. -/
theorem exists_splices_children (new : Forest) : ∀ {item : Item}, item.uid ≠ u →
    item.find? u = some old → ∃ g, Splices old new item.children g
  | ⟨v, key, quantity, children⟩, hne, h => by
    rw [Item.find?, if_neg hne] at h
    exact exists_splices new h

/-- What is found in a forest can be exchanged for anything. -/
theorem exists_splices (new : Forest) : ∀ {f : Forest}, find? u f = some old →
    ∃ g, Splices old new f g
  | item :: rest, h => by
    rw [find?, Option.or_eq_some_iff] at h
    rcases h with h | ⟨-, h⟩
    · by_cases hu : item.uid = u
      · rw [Item.find?_eq, if_pos hu] at h
        cases h
        exact ⟨_, .here [] rest⟩
      · obtain ⟨children, hchildren⟩ := exists_splices_children new hu h
        exact ⟨_, .inside [] item rest hchildren⟩
    · obtain ⟨g, hg⟩ := exists_splices new h
      exact ⟨_, hg.cons item⟩

end

/-! ## Dropping and exchanging -/

/-- Dropping a number takes the item with this number out of its place. -/
theorem Splices.without_eq (h : Splices old [] f g) (hnodup : (uids f).Nodup) :
    without old.uid f = g := by
  induction h with
  | here before after =>
    obtain ⟨hbefore, hafter⟩ := notMem_uids_around hnodup old.uid_mem_uids
    rw [without_append, without, if_pos rfl, without_of_notMem hbefore, without_of_notMem hafter,
      List.append_nil]
  | inside before parent after hbelow ih =>
    obtain ⟨hroot, hchildren⟩ := nodup_uids_children hnodup
    obtain ⟨hbefore, hafter⟩ := notMem_uids_around hnodup hbelow.uid_mem_uids_parent
    have hne : parent.uid ≠ old.uid := fun heq => hroot (heq ▸ hbelow.uid_mem_uids)
    have hparent : parent.without old.uid =
        { parent with children := without old.uid parent.children } := by
      cases parent; rfl
    rw [without_append, without, if_neg hne, without_of_notMem hbefore, without_of_notMem hafter,
      hparent, ih hchildren]

/-- Dropping a number takes out what is found under it, and nothing else. -/
theorem splices_without (hnodup : (uids f).Nodup) (h : find? u f = some old) :
    Splices old [] f (without u f) := by
  obtain ⟨g, hg⟩ := exists_splices [] h
  rw [← uid_of_find? h, hg.without_eq hnodup]
  exact hg

/-- An exchange puts the new item in the place of the one with its number. -/
theorem Splices.replacing_eq {new : Item} (h : Splices old [new] f g) (hnodup : (uids f).Nodup)
    (huid : new.uid = old.uid) : replacing new f = g := by
  induction h with
  | here before after =>
    obtain ⟨hbefore, hafter⟩ := notMem_uids_around hnodup (huid ▸ old.uid_mem_uids)
    have hold : Item.replacing new old = new := by
      cases old
      exact if_pos huid.symm
    rw [replacing_append, replacing, hold, replacing_of_notMem hbefore,
      replacing_of_notMem hafter, List.append_assoc, List.singleton_append]
  | inside before parent after hbelow ih =>
    obtain ⟨hroot, hchildren⟩ := nodup_uids_children hnodup
    obtain ⟨hbefore, hafter⟩ := notMem_uids_around hnodup (huid ▸ hbelow.uid_mem_uids_parent)
    have hne : parent.uid ≠ new.uid := fun heq => hroot (heq.trans huid ▸ hbelow.uid_mem_uids)
    have hparent : Item.replacing new parent =
        { parent with children := replacing new parent.children } := by
      cases parent
      exact if_neg hne
    rw [replacing_append, replacing, hparent, ih hchildren, replacing_of_notMem hbefore,
      replacing_of_notMem hafter]

/-- An exchange puts the new item in the place of what is found under its number, and changes
nothing else. -/
theorem splices_replacing {new : Item} (hnodup : (uids f).Nodup)
    (h : find? new.uid f = some old) : Splices old [new] f (replacing new f) := by
  obtain ⟨g, hg⟩ := exists_splices [new] h
  rw [hg.replacing_eq hnodup (uid_of_find? h).symm]
  exact hg

/-! ## What is found after a splice -/

/-- What is found under a number outside the place of a splice is found after it too. It stays what
it is, unless the splice lies below it. -/
theorem Splices.exists_found (h : Splices old new f g) (hnodup : (uids f).Nodup)
    (hold : v ∉ old.uids) (hnew : v ∉ uids new) (hfind : find? v f = some item) :
    ∃ left, find? v g = some left ∧ item.Follows old new left := by
  induction h with
  | here before after =>
    obtain ⟨hbefore, hafter⟩ := notMem_uids_around hnodup old.uid_mem_uids
    rw [find?_append, find?, Item.find?_eq_none_iff.2 hold, Option.none_or] at hfind
    refine ⟨item, ?_, .same fun hmem => ?_⟩
    · rw [find?_append, find?_append, find?_eq_none_iff.2 hnew, Option.or_none, hfind]
    · rcases Option.or_eq_some_iff.1 hfind with hfind | ⟨-, hfind⟩
      · exact hbefore ((uids_sublist_of_find? hfind).subset hmem)
      · exact hafter ((uids_sublist_of_find? hfind).subset hmem)
  | @inside children before parent after hbelow ih =>
    obtain ⟨hbefore, hafter⟩ := notMem_uids_around hnodup hbelow.uid_mem_uids_parent
    rw [find?_append, find?, Item.find?_eq] at hfind ⊢
    rcases Option.or_eq_some_iff.1 hfind with hfind | ⟨hnone, hfind⟩
    · refine ⟨item, by rw [hfind, Option.some_or], .same fun hmem => ?_⟩
      exact hbefore ((uids_sublist_of_find? hfind).subset hmem)
    rw [hnone, Option.none_or]
    by_cases hv : parent.uid = v
    · -- The parent itself is found.
      rw [if_pos hv, Option.some_or] at hfind ⊢
      cases hfind
      exact ⟨_, rfl, .above hbelow⟩
    rw [if_neg hv] at hfind ⊢
    rcases Option.or_eq_some_iff.1 hfind with hfind | ⟨hnone, hfind⟩
    · obtain ⟨left, hleft, hfollows⟩ := ih (nodup_uids_children hnodup).2 hfind
      exact ⟨left, by rw [hleft, Option.some_or], hfollows⟩
    · have hchildren : find? v children = none := by
        rw [find?_eq_none_iff] at hnone ⊢
        exact fun hv => (hbelow.mem_uids hv).elim hnone hnew
      refine ⟨item, by rw [hchildren, Option.none_or, hfind], .same fun hmem => ?_⟩
      exact hafter ((uids_sublist_of_find? hfind).subset hmem)

end Forest

end SpokenOrder
