import SpokenOrder.Reference

/-!
# What references find

A reference finds top-level items of the cart (`Scene.mem_items_of_mem_targets`). A reference to an
option of an item finds children of the item, or a default option that the item comes with and of
which it has no variant as a child (`Menu.HasOption`).
-/

namespace SpokenOrder

/-! ## Ranking -/

namespace Ranking

/-- What is kept after an insertion was inserted or there before. -/
theorem mem_of_mem_insert {new find : Scored Item} {ranked : List (Scored Item)}
    (h : find ∈ insert new ranked) : find = new ∨ find ∈ ranked := by
  induction ranked with
  | nil => exact .inl (List.mem_singleton.1 h)
  | cons old rest ih =>
    rw [insert] at h
    split at h
    · rcases List.mem_cons.1 h with rfl | h
      · split
        · exact .inr List.mem_cons_self
        · exact .inl rfl
      · exact .inr (List.mem_cons_of_mem _ h)
    · split at h
      · exact List.mem_cons.1 h
      · rcases List.mem_cons.1 h with rfl | h
        · exact .inr List.mem_cons_self
        · exact (ih h).imp_right (List.mem_cons_of_mem _)

/-- Ranking brings in nothing that was not found. -/
theorem mem_of_mem_ofFinds {position : Item → Nat} {finds : List (Scored Item)}
    {find : Scored Item} (h : find ∈ ofFinds position finds) : find ∈ finds := by
  rw [ofFinds, List.mem_mergeSort] at h
  suffices hfold : ∀ ranked : List (Scored Item),
      find ∈ finds.foldl (fun ranked new => insert new ranked) ranked →
        find ∈ ranked ∨ find ∈ finds from (hfold [] h).resolve_left List.not_mem_nil
  clear h
  induction finds with
  | nil => exact fun _ h => .inl h
  | cons new rest ih =>
    intro ranked h
    rcases ih _ h with h | h
    · rcases mem_of_mem_insert h with rfl | h
      · exact .inr List.mem_cons_self
      · exact .inl h
    · exact .inr (List.mem_cons_of_mem _ h)

end Ranking

/-! ## References -/

/-- Unknown words are in every vocabulary. -/
theorem Vocabulary.wants_of_isUnknown (v : Vocabulary) {t : Token} (h : t.isUnknown = true) :
    v.wants t = true := by
  cases t <;> first | rfl | cases h

/-- A default option of the parent none of whose variants is a child, as it would be a child. -/
structure Menu.UntouchedDefault (menu : Menu) (parent option : Item) : Prop where
  isDefault : menu.catalog.isDefaultOption parent.key.pid option.key.pid = true
  untouched : ∀ child ∈ parent.children, child.key.pid ≠ option.key.pid
  defaultKey : menu.defaultKey? option.key.pid = some option.key
  fresh : option = Item.ofKey option.key 1

/-- The options that a reference to an option of the parent can find. -/
def Menu.HasOption (menu : Menu) (parent option : Item) : Prop :=
  option ∈ parent.children ∨ menu.UntouchedDefault parent option

namespace Scene

variable {α : Type} {scene : Scene α}

/-- An untouched default that is found is one. -/
theorem untouchedDefault_of_eq_some {parent option : Item} {t : OptionTarget}
    (h : scene.untouchedDefault? parent t = some option) :
    scene.menu.UntouchedDefault parent option := by
  unfold untouchedDefault? at h
  split at h
  · next hcond =>
    rw [Bool.and_eq_true, Bool.not_eq_true', List.any_eq_false] at hcond
    obtain ⟨key, hkey, rfl⟩ := Option.map_eq_some_iff.1 h
    obtain ⟨matrix, -, hpid⟩ := Option.map_eq_some_iff.1 hkey
    -- The key that a matrix gives is a variant of the product that it was asked for.
    have hpid : key.pid = t.pid := by rw [← hpid]; rfl
    refine ⟨?_, fun child hchild => ?_, ?_, rfl⟩
    · rw [Item.ofKey, hpid]; exact hcond.1
    · rw [Item.ofKey, hpid]; simpa using hcond.2 child hchild
    · rw [Item.ofKey, hpid]; exact hkey
  · cases h

/-- A tokenization that is the segment of a target finds the items of the cart that the target
fits. -/
theorem mem_findsIn_iff {cart : Cart} {span : Span} {run : Run} {find : Scored Item} :
    find ∈ scene.findsIn cart span run ↔ ∃ segment t, run.segment? = some segment ∧
      scene.menu.target? segment = some t ∧ find.value ∈ cart.items ∧
      t.value.fits find.value = true ∧ find.score = t.score ∧ find.tokenCount = span.length := by
  unfold findsIn
  constructor
  · intro h
    split at h
    · cases h
    · next t ht =>
      obtain ⟨segment, hsegment, htarget⟩ := Option.bind_eq_some_iff.1 ht
      obtain ⟨item, hitem, rfl⟩ := List.mem_map.1 h
      obtain ⟨hpattern, hcarried⟩ := List.mem_filter.1 hitem
      obtain ⟨hmem, hcovers⟩ := List.mem_filter.1 hpattern
      refine ⟨segment, t, hsegment, htarget, hmem, ?_, rfl, rfl⟩
      rw [Target.fits, hcovers, hcarried]
      rfl
  · rintro ⟨segment, t, hsegment, htarget, hitem, hfits, hscore, htokens⟩
    rw [Target.fits, Bool.and_eq_true] at hfits
    have ht : run.segment?.bind scene.menu.target? = some t :=
      Option.bind_eq_some_iff.2 ⟨segment, hsegment, htarget⟩
    obtain ⟨item, score, tokens⟩ := find
    simp only at hscore htokens
    rw [hscore, htokens]
    simp only [ht]
    refine List.mem_map.2 ⟨item, ?_, rfl⟩
    exact List.mem_filter.2 ⟨List.mem_filter.2 ⟨hitem, hfits.1⟩, hfits.2⟩

/-- What a tokenization finds among the options of an item is a child or an untouched default, and
it has the score of the target that the tokenization is. -/
theorem exists_of_mem_optionFindsIn {parent : Item} {span : Span} {run : Run}
    {find : Scored Item} (h : find ∈ scene.optionFindsIn parent span run) :
    ∃ t, scene.menu.optionTarget? run = some t ∧ scene.menu.HasOption parent find.value ∧
      find.score = t.score := by
  unfold optionFindsIn at h
  split at h
  · cases h
  · next t ht =>
    obtain ⟨item, hitem, rfl⟩ := List.mem_map.1 h
    refine ⟨t, ht, ?_, rfl⟩
    split at hitem
    · exact .inr (untouchedDefault_of_eq_some (Option.mem_toList.1 hitem))
    · exact .inl (List.mem_filter.1 hitem).1

variable [Score α]

/-- A reference finds top-level items of the cart only. -/
theorem mem_items_of_mem_targets {cart : Cart} {span : Span} {target : Scored Item}
    (h : target ∈ scene.targets cart span) : target.value ∈ cart.items := by
  obtain ⟨run, -, hfind⟩ := List.mem_flatMap.1 (Ranking.mem_of_mem_ofFinds h)
  obtain ⟨segment, t, -, -, hitem, -⟩ := mem_findsIn_iff.1 hfind
  exact hitem

/-- A reference to an option of an item finds a child or an untouched default. -/
theorem hasOption_of_mem_optionTargets {parent : Item} {span : Span} {option : Scored Item}
    (h : option ∈ scene.optionTargets parent span) : scene.menu.HasOption parent option.value := by
  obtain ⟨run, -, hfind⟩ := List.mem_flatMap.1 (Ranking.mem_of_mem_ofFinds h)
  obtain ⟨t, -, hoption, -⟩ := exists_of_mem_optionFindsIn hfind
  exact hoption

end Scene

end SpokenOrder
