import SpokenOrder.Proofs.Grammar.Derivation
import SpokenOrder.Proofs.Interpretation.Selection
import SpokenOrder.Proofs.Reference.Score

/-!
# What the intent grammar does

Each production of the intent grammar is inverted once (`Intent.Outcome`): it adds the items of a
group, removes items that a group refers to, or exchanges one item for a rewritten one
(`Menu.Rewrites`), and it scores one or more. In terms of carts alone these are the edits of a cart
(`Menu.Edit`). A run of the grammar is a sequence of edits (`Intent.edits_of_process`), and so is the
interpretation of an utterance (`Scene.edits_of_interpret`).
-/

namespace SpokenOrder

/-- What one production of the intent grammar can do to a cart. -/
inductive Menu.Edit (menu : Menu) (cart : Cart) : Cart → Prop
  /-- New items, built from the segments of one group. -/
  | added {words : Run} {segments : List Segment} : segments ∈ words.segmentations →
      segments.filterMap menu.newItem? ≠ [] →
      Edit menu cart (cart.addAll ((segments.filterMap menu.newItem?).map (·.value)))
  /-- Some top-level items, at most one for each segment of a group. -/
  | removed {words : Run} {segments : List Segment} {uids : List Uid} :
      segments ∈ words.segmentations → uids ≠ [] → uids.Nodup → uids.length ≤ segments.length →
      (∀ u ∈ uids, ∃ item ∈ cart.items, item.uid = u) → Edit menu cart (cart.removeAll uids)
  | changed {item : Item} {words : Run} {new : Scored Item} : item ∈ cart.items →
      menu.modified? item words = some new → Edit menu cart (cart.replace new.value)
  | replaced {target : Item} {segment : Segment} {new : Scored Item} : target ∈ cart.items →
      menu.replacement? target segment = some new → Edit menu cart (cart.replace new.value)
  | optionRemoved {parent option : Item} : parent ∈ cart.items → menu.HasOption parent option →
      Edit menu cart (cart.replace (menu.withoutOption parent option))

/-- What can come in the place of an item: the item as some words change it, the item that a segment
describes, or the item without one of its options. -/
inductive Menu.Rewrites (menu : Menu) (old : Item) : Item → Prop
  | changed {words : Run} {new : Scored Item} : menu.modified? old words = some new →
      Rewrites menu old new.value
  | replaced {segment : Segment} {new : Scored Item} :
      menu.replacement? old segment = some new → Rewrites menu old new.value
  | optionRemoved {option : Item} : menu.HasOption old option →
      Rewrites menu old (menu.withoutOption old option)

/-- To put a rewritten item in the place of an item of the cart is an edit of the cart. -/
theorem Menu.Rewrites.edit {menu : Menu} {cart : Cart} {old new : Item}
    (h : menu.Rewrites old new) (hold : old ∈ cart.items) : menu.Edit cart (cart.replace new) := by
  cases h with
  | changed hnew => exact .changed hold hnew
  | replaced hnew => exact .replaced hold hnew
  | optionRemoved hoption => exact .optionRemoved hold hoption

namespace Intent

/-- What a production that fires makes of the context. Besides the marks of intent, it scores one or
more. -/
inductive Outcome (menu : Menu) (c : Context) (captures : Captures) : Context → Prop
  /-- The items that can be built from the segments of the captured group are added. -/
  | adds {words : Run} {segments : List Segment} {score : Nat} :
      groupIn? captures 2 = some words → segments ∈ words.segmentations →
      segments.filterMap menu.newItem? ≠ [] → 0 < score → Outcome menu c captures
        (c.edit captures (c.cart.addAll ((segments.filterMap menu.newItem?).map (·.value))) score)
  /-- Some items are removed, at most one for each segment of the captured group. -/
  | removes {words : Run} {segments : List Segment} {uids : List Uid} {score : Nat} :
      groupIn? captures 2 = some words → segments ∈ words.segmentations → uids ≠ [] → uids.Nodup →
      uids.length ≤ segments.length → (∀ u ∈ uids, ∃ item ∈ c.cart.items, item.uid = u) →
      0 < score → Outcome menu c captures (c.edit captures (c.cart.removeAll uids) score)
  /-- An item is exchanged for a rewritten one. -/
  | exchanges {old new : Item} {score : Nat} : old ∈ c.cart.items → menu.Rewrites old new →
      0 < score → Outcome menu c captures (c.edit captures (c.cart.replace new) score)

namespace Outcome

variable {menu : Menu} {c next : Context} {captures : Captures}

/-- What a production makes of the cart is an edit of it. -/
theorem edit (h : Outcome menu c captures next) : menu.Edit c.cart next.cart := by
  cases h with
  | adds _ hsegments hne _ => exact .added hsegments hne
  | removes _ hsegments hne hnd hlen hitems _ => exact .removed hsegments hne hnd hlen hitems
  | exchanges hold hnew _ => exact hnew.edit hold

/-- A production that fires raises the score. -/
theorem score_lt (h : Outcome menu c captures next) : c.score < next.score := by
  cases h with
  | adds _ _ _ hscore | removes _ _ _ _ _ _ hscore | exchanges _ _ hscore =>
    exact Nat.lt_of_le_of_lt (Nat.le_add_right _ _) (Nat.lt_add_of_pos_right hscore)

end Outcome

/-! ## Choosing a segmentation -/

/-- The best of some readings is one of them. -/
theorem mem_of_best? {β : Type} {read : List (β × Nat)} {best : β × Nat}
    (h : best? read = some best) : best ∈ read := by
  induction read with
  | nil => cases h
  | cons first rest ih =>
    rw [best?] at h
    cases hrest : best? rest with
    | none => rw [hrest] at h; cases h; exact List.mem_cons_self
    | some other =>
      simp only [hrest] at h
      split at h
      · cases h; exact List.mem_cons_of_mem _ (ih hrest)
      · cases h; exact List.mem_cons_self

/-- The best that is made of a segmentation is made of one. -/
theorem exists_of_bestSegmentation? {β : Type} {run : Run}
    {read : List Segment → Option (β × Nat)} {best : β × Nat}
    (h : bestSegmentation? run read = some best) :
    ∃ segments ∈ run.segmentations, read segments = some best :=
  List.mem_filterMap.1 (mem_of_best? h)

variable {α : Type} {scene : Scene α} {c next : Context} {captures : Captures}

/-! ## The item that was added last, and new items -/

/-- Items that were built score together. -/
theorem sum_score_pos {menu : Menu} {segments : List Segment}
    (hne : segments.filterMap menu.newItem? ≠ []) :
    0 < (segments.filterMap menu.newItem?).foldr (·.score + ·) 0 := by
  obtain ⟨built, rest, hbuilt⟩ := List.exists_cons_of_ne_nil hne
  obtain ⟨segment, -, hnew⟩ : ∃ segment ∈ segments, menu.newItem? segment = some built :=
    List.mem_filterMap.1 (hbuilt ▸ List.mem_cons_self)
  rw [hbuilt, List.foldr_cons]
  exact Nat.add_pos_left (Menu.score_newItem?_pos hnew) _

/-- The new items are those that the segments build, and there is one. -/
theorem newItems?_eq_some {menu : Menu} {segments : List Segment} {items : List Item} {score : Nat}
    (h : newItems? menu segments = some (items, score)) :
    segments.filterMap menu.newItem? ≠ [] ∧
      items = (segments.filterMap menu.newItem?).map (·.value) ∧
      score = (segments.filterMap menu.newItem?).foldr (·.score + ·) 0 := by
  unfold newItems? at h
  split at h
  · cases h
  · next hne => cases h; exact ⟨hne, rfl, rfl⟩

/-- New items are added. -/
theorem outcome_of_addNewItems (h : addNewItems scene c captures = some next) :
    Outcome scene.menu c captures next := by
  obtain ⟨words, hwords, h⟩ := Option.bind_eq_some_iff.1 h
  obtain ⟨⟨items, score⟩, hbest, h⟩ := Option.bind_eq_some_iff.1 h
  obtain ⟨segments, hsegments, hread⟩ := exists_of_bestSegmentation? hbest
  obtain ⟨hne, rfl, rfl⟩ := newItems?_eq_some hread
  cases h
  exact .adds hwords hsegments hne (sum_score_pos hne)

/-- The item that was added last, changed by the words in any slot. -/
theorem outcome_of_changeLast {slot : Nat}
    (h : (do
      let words ← groupIn? captures slot
      let last ← c.cart.last?
      let new ← scene.menu.modified? last words
      return replaced c captures new 0) = some next) : Outcome scene.menu c captures next := by
  obtain ⟨words, -, h⟩ := Option.bind_eq_some_iff.1 h
  obtain ⟨last, hlast, h⟩ := Option.bind_eq_some_iff.1 h
  obtain ⟨new, hnew, h⟩ := Option.bind_eq_some_iff.1 h
  cases h
  exact .exchanges (List.mem_of_getLast? hlast) (.changed hnew)
    (Nat.add_pos_right _ (Menu.score_modified?_pos hnew))

/-- What is added onto the last item exchanges it. -/
theorem outcome_of_addOntoLast (h : addOntoLast scene c captures = some next) :
    Outcome scene.menu c captures next := outcome_of_changeLast h

/-- So does a change to the last item. -/
theorem outcome_of_modifyLast (h : modifyLast scene c captures = some next) :
    Outcome scene.menu c captures next := outcome_of_changeLast h

/-! ## Items that words refer to -/

/-- The first of some items that words can change. -/
theorem outcome_of_modifyFirst {targets : List (Scored Item)} {words : Run}
    (htargets : ∀ target ∈ targets, target.value ∈ c.cart.items)
    (h : modifyFirst scene c captures targets words = some next) :
    Outcome scene.menu c captures next := by
  obtain ⟨target, htarget, h⟩ := List.exists_of_findSome?_eq_some h
  obtain ⟨new, hnew, rfl⟩ := Option.map_eq_some_iff.1 h
  exact .exchanges (htargets target htarget) (.changed hnew)
    (Nat.add_pos_right _ (Menu.score_modified?_pos hnew))

/-- The first of some items that a segment can replace. -/
theorem rewrites_of_replaceFirst? {menu : Menu} {targets : List (Scored Item)}
    {segment : Segment} {new : Item} {score : Nat}
    (h : replaceFirst? menu targets segment = some (new, score)) :
    ∃ target ∈ targets, menu.Rewrites target.value new ∧ 0 < score := by
  obtain ⟨target, htarget, h⟩ := List.exists_of_findSome?_eq_some h
  obtain ⟨built, hbuilt, h⟩ := Option.map_eq_some_iff.1 h
  cases h
  exact ⟨target, htarget, .replaced hbuilt,
    Nat.add_pos_right _ (Menu.score_replacement?_pos hbuilt)⟩

variable [Score α]

/-- The targets in a slot are items of the cart. -/
theorem mem_items_of_mem_targetsIn {slot : Nat} {target : Scored Item}
    (h : target ∈ targetsIn scene c captures slot) : target.value ∈ c.cart.items := by
  unfold targetsIn at h
  split at h
  · cases h
  · exact Scene.mem_items_of_mem_targets h

/-- What is added onto a target exchanges it. -/
theorem outcome_of_addOntoTarget (h : addOntoTarget scene c captures = some next) :
    Outcome scene.menu c captures next := by
  obtain ⟨options, -, h⟩ := Option.bind_eq_some_iff.1 h
  exact outcome_of_modifyFirst (fun _ ht => mem_items_of_mem_targetsIn ht) h

/-- So does a change to a target. -/
theorem outcome_of_modifyTarget (h : modifyTarget scene c captures = some next) :
    Outcome scene.menu c captures next := by
  obtain ⟨changes, -, h⟩ := Option.bind_eq_some_iff.1 h
  exact outcome_of_modifyFirst (fun _ ht => mem_items_of_mem_targetsIn ht) h

/-- So does a change by the words around the reference itself. -/
theorem outcome_of_modifyInPlace (h : modifyInPlace scene c captures = some next) :
    Outcome scene.menu c captures next := by
  obtain ⟨segment, -, h⟩ := Option.bind_eq_some_iff.1 h
  exact outcome_of_modifyFirst (fun _ ht => Scene.mem_items_of_mem_targets ht) h

/-- A target is exchanged for what a segment builds. -/
theorem outcome_of_replaceTarget (h : replaceTarget scene c captures = some next) :
    Outcome scene.menu c captures next := by
  obtain ⟨segment, -, h⟩ := Option.bind_eq_some_iff.1 h
  obtain ⟨⟨new, score⟩, hnew, h⟩ := Option.bind_eq_some_iff.1 h
  cases h
  obtain ⟨target, htarget, hrewrites, hscore⟩ := rewrites_of_replaceFirst? hnew
  exact .exchanges (mem_items_of_mem_targetsIn htarget) hrewrites hscore

/-- So is the one of two segments that refers to an item. -/
theorem outcome_of_replaceInGroup (h : replaceInGroup scene c captures = some next) :
    Outcome scene.menu c captures next := by
  obtain ⟨words, -, h⟩ := Option.bind_eq_some_iff.1 h
  obtain ⟨⟨new, score⟩, hbest, h⟩ := Option.bind_eq_some_iff.1 h
  obtain ⟨segments, -, hread⟩ := exists_of_bestSegmentation? hbest
  cases h
  unfold replaceWithin? at hread
  split at hread
  · obtain ⟨target, htarget, hrewrites, hscore⟩ := rewrites_of_replaceFirst? hread
    exact .exchanges (Scene.mem_items_of_mem_targets htarget) hrewrites hscore
  · cases hread

/-! ## Removing -/

/-- Numbers that were found for segments: they are distinct numbers of items, no more than there are
segments, and each has scored. -/
structure Found (cart : Cart) (segments : Nat) (found : List Uid × Nat) : Prop where
  nodup : found.1.Nodup
  length_le : found.1.length ≤ segments
  exists_item : ∀ u ∈ found.1, ∃ item ∈ cart.items, item.uid = u
  length_le_score : found.1.length ≤ found.2

/-- One more item was found for one more segment. -/
theorem Found.cons {cart : Cart} {n : Nat} {found : List Uid × Nat} {target : Scored Item}
    (h : Found cart n found) (hmem : target.value ∈ cart.items)
    (hnew : target.value.uid ∉ found.1) (hscore : 0 < target.score) :
    Found cart (n + 1) (found.1 ++ [target.value.uid], found.2 + target.score) := by
  have hlen := h.length_le
  have hlen' := h.length_le_score
  refine ⟨?_, ?_, ?_, ?_⟩
  · refine List.nodup_append.2 ⟨h.nodup, List.nodup_singleton _, ?_⟩
    intro u hu v hv huv
    exact hnew (List.mem_singleton.1 hv ▸ huv ▸ hu)
  · simpa using hlen
  · intro u hu
    rcases List.mem_append.1 hu with hu | hu
    · exact h.exists_item u hu
    · exact ⟨target.value, hmem, (List.mem_singleton.1 hu).symm⟩
  · rw [List.length_append, List.length_singleton]
    omega

/-- Going through segments adds to what was found one number at most for each segment. -/
theorem Found.removals {cart : Cart} {n : Nat} {found : List Uid × Nat} (h : Found cart n found)
    (scene : Scene α) (segments : List Segment) :
    Found cart (n + segments.length) (removals scene cart found segments) := by
  induction segments generalizing n found with
  | nil => exact h
  | cons segment rest ih =>
    rw [Intent.removals, List.length_cons, Nat.add_comm rest.length, ← Nat.add_assoc]
    split
    · exact ih ⟨h.nodup, Nat.le_succ_of_le h.length_le, h.exists_item, h.length_le_score⟩
    · next target htarget =>
      have hmem := List.mem_of_find?_eq_some htarget
      have hnew : target.value.uid ∉ found.1 := by simpa using List.find?_some htarget
      exact ih (h.cons (Scene.mem_items_of_mem_targets hmem) hnew
        (Scene.score_pos_of_mem_targets hmem))

/-- Where segments refer to items to remove, there is one at least, and at most one for each. -/
theorem found_of_removals? {cart : Cart} {segments : List Segment} {found : List Uid × Nat}
    (h : removals? scene cart segments = some found) :
    found.1 ≠ [] ∧ Found cart segments.length found := by
  have hnothing : Found cart 0 ([], 0) := ⟨.nil, Nat.le_refl 0, nofun, Nat.le_refl 0⟩
  have hfound := hnothing.removals scene segments
  unfold removals? at h
  split at h
  · cases h
  · next hne =>
    rw [Option.some.injEq] at h
    rw [h, Nat.zero_add] at hfound
    exact ⟨fun hnil => hne found.2 (h.trans (Prod.ext hnil rfl)), hfound⟩

/-- The items that the segments of a group refer to are removed. -/
theorem outcome_of_removeItems (h : removeItems scene c captures = some next) :
    Outcome scene.menu c captures next := by
  obtain ⟨words, hwords, h⟩ := Option.bind_eq_some_iff.1 h
  obtain ⟨⟨uids, score⟩, hbest, h⟩ := Option.bind_eq_some_iff.1 h
  obtain ⟨segments, hsegments, hread⟩ := exists_of_bestSegmentation? hbest
  cases h
  obtain ⟨huids, hfound⟩ := found_of_removals? hread
  exact .removes hwords hsegments huids hfound.nodup hfound.length_le hfound.exists_item
    (Nat.lt_of_lt_of_le (List.length_pos_iff.2 huids) hfound.length_le_score)

/-- To take an option off an item of the cart exchanges the item. -/
theorem outcome_of_removeOption {span : Span} {score : Nat} {parent : Item}
    (hparent : parent ∈ c.cart.items)
    (h : removeOption scene c captures span score parent = some next) :
    Outcome scene.menu c captures next := by
  obtain ⟨option, hoption, rfl⟩ := Option.map_eq_some_iff.1 h
  have hmem := List.mem_of_head? hoption
  exact .exchanges hparent (.optionRemoved (Scene.hasOption_of_mem_optionTargets hmem))
    (Nat.add_pos_right _ (Scene.score_pos_of_mem_optionTargets hmem))

/-- So it is with the option of a target. -/
theorem outcome_of_removeOptionFromTarget
    (h : removeOptionFromTarget scene c captures = some next) :
    Outcome scene.menu c captures next := by
  obtain ⟨span, -, h⟩ := Option.bind_eq_some_iff.1 h
  obtain ⟨target, htarget, h⟩ := List.exists_of_findSome?_eq_some h
  exact outcome_of_removeOption (mem_items_of_mem_targetsIn htarget) h

/-- So it is with the option of the latest item that has one. -/
theorem outcome_of_removeOptionFromLatest
    (h : removeOptionFromLatest scene c captures = some next) :
    Outcome scene.menu c captures next := by
  obtain ⟨span, -, h⟩ := Option.bind_eq_some_iff.1 h
  obtain ⟨parent, hparent, h⟩ := List.exists_of_findSome?_eq_some h
  exact outcome_of_removeOption (List.mem_reverse.1 hparent) h

/-! ## The grammar -/

/-- A production that fires has one of the outcomes. -/
theorem outcome_of_production {rule : Rule Context} {used : Nat}
    (hrule : rule ∈ (grammar scene).rules) (h : rule.production c captures used = some next) :
    Outcome scene.menu c captures next := by
  simp only [grammar, Grammar.ofRules, addRules, removeRules, modifyRules, Rule.plain,
    List.cons_append, List.nil_append, List.mem_cons, List.not_mem_nil, or_false] at hrule
  rcases hrule with rfl | rfl | rfl | rfl | rfl | rfl | rfl | rfl | rfl | rfl | rfl | rfl
  · exact outcome_of_addOntoTarget h
  · exact outcome_of_addOntoLast h
  · exact outcome_of_addNewItems h
  · exact outcome_of_addOntoLast h
  · exact outcome_of_removeItems h
  · exact outcome_of_removeOptionFromTarget h
  · exact outcome_of_removeOptionFromLatest h
  · exact outcome_of_modifyTarget h
  · exact outcome_of_modifyLast h
  · exact outcome_of_replaceTarget h
  · exact outcome_of_replaceInGroup h
  · exact outcome_of_modifyInPlace h

/-- A run of the grammar is a sequence of edits. -/
theorem edits_of_process (scene : Scene α) (c : Context) (run : Run) :
    Relation.ReflTransGen scene.menu.Edit c.cart ((grammar scene).process c run).1.cart := by
  have hsteps := ((grammar scene).runs_process c run).reflTransGen
    (R := fun c next => scene.menu.Edit c.cart next.cart)
    fun rule hrule _ _ _ _ hprod => (outcome_of_production hrule hprod).edit
  exact hsteps.lift Context.cart fun _ _ hedit => hedit

end Intent

/-- The interpretation of an utterance is a sequence of edits. -/
theorem Scene.edits_of_interpret {α : Type} [Score α] (scene : Scene α) (cart : Cart) :
    Relation.ReflTransGen scene.menu.Edit cart (scene.interpret cart).cart := by
  unfold interpret weigh
  rcases Interpretation.ofCandidates_cart with hcart | ⟨c, hc, hcart⟩
  · rw [hcart]
  · obtain ⟨tokens, -, rfl⟩ := List.mem_map.1 hc
    rw [hcart]
    exact Intent.edits_of_process scene (.ofCart cart) tokens.group

end SpokenOrder
