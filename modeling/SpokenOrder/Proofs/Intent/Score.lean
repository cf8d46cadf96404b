import SpokenOrder.Proofs.Grammar.Captures
import SpokenOrder.Proofs.Intent.Edit
import SpokenOrder.Proofs.Reference.Score
import SpokenOrder.Proofs.Run.Group

/-!
# What the intent grammar scores

An edit scores one for each mark of intent among the captured tokens, and for the captured groups
what is built from them and what they refer to. Each group is built from or referred to once, or its
segments share it, so by any tally that bounds the lattice it scores no more than its words count
(`Intent.score_le_of_production`). What is built without a reference scores no more than the tokens
of the group (`Intent.score_le_of_building`). These bounds add up over a run of the grammar
(`Intent.score_process_le`, `Intent.score_process_le_tokenCount`).
-/

namespace SpokenOrder.Intent

/-! ## Marks of intent and groups -/

section captures
variable {T : Tally} {captures : Captures} {worth : Placed Token → Nat} {slot other m n : Nat}
  {p q : Placed Token} {words : Run}

/-- If each mark of intent is worth one or more, there are no more of them than all captured tokens
are worth. -/
theorem markers_le (hworth : ∀ p ∈ captures.filled, p.token.run? = none → 1 ≤ worth p) :
    Context.markers captures ≤ (captures.filled.map worth).sum := by
  rw [Context.markers]
  generalize captures.filled = run at hworth ⊢
  induction run with
  | nil => exact Nat.le_refl _
  | cons p rest ih =>
    obtain ⟨hp, hrest⟩ := List.forall_mem_cons.1 hworth
    have hle := ih hrest
    rw [List.countP_cons, List.map_cons, List.sum_cons]
    split
    · next hnone =>
      have hone := hp (Option.isNone_iff_eq_none.1 hnone)
      omega
    · omega

/-- The captured tokens around one. -/
theorem filled_around (before after : Captures) (p : Placed Token) :
    Captures.filled (before ++ some p :: after) = before.filled ++ p :: after.filled :=
  Captures.filled_append _ _

/-- A group is no mark of intent. -/
theorem markers_around (before after : Captures) (hgroup : p.token.run?.isSome = true) :
    Context.markers (before ++ some p :: after) =
      Context.markers before + Context.markers after := by
  rw [Context.markers, filled_around, List.countP_append, List.countP_cons_of_neg]
  · rfl
  · rw [Option.isNone_iff_eq_none]
    exact Option.isSome_iff_ne_none.1 hgroup

/-- The marks of intent and a group are together worth no more than all captured tokens. -/
theorem markers_add_le (hworth : ∀ p ∈ captures.filled, p.token.run? = none → 1 ≤ worth p)
    (hp : captures.get? slot = some p) (hgroup : p.token.run?.isSome = true) :
    Context.markers captures + worth p ≤ (captures.filled.map worth).sum := by
  obtain ⟨before, after, rfl, -⟩ := Captures.exists_split_of_get? hp
  rw [filled_around, List.forall_mem_append, List.forall_mem_cons] at hworth
  have hbefore := markers_le hworth.1
  have hafter := markers_le hworth.2.2
  rw [markers_around before after hgroup, filled_around, List.map_append, List.sum_append,
    List.map_cons, List.sum_cons]
  omega

/-- So are the marks of intent and two groups. -/
theorem markers_add_add_le (hworth : ∀ p ∈ captures.filled, p.token.run? = none → 1 ≤ worth p)
    (hlt : slot < other) (hp : captures.get? slot = some p)
    (hgroup : p.token.run?.isSome = true) (hq : captures.get? other = some q)
    (hgroup' : q.token.run?.isSome = true) :
    Context.markers captures + (worth p + worth q) ≤ (captures.filled.map worth).sum := by
  obtain ⟨before, after, rfl, rfl⟩ := Captures.exists_split_of_get? hp
  obtain ⟨k, rfl⟩ := Nat.exists_eq_add_of_lt hlt
  -- The second group is among the slots behind the first.
  have hq : Captures.get? after k = some q := by
    have hshift : before.length + k + 1 - before.length = k + 1 := by omega
    rwa [Captures.get?, List.getElem?_append_right (by omega), hshift,
      List.getElem?_cons_succ] at hq
  rw [filled_around, List.forall_mem_append, List.forall_mem_cons] at hworth
  have hbefore := markers_le hworth.1
  have hafter := markers_add_le hworth.2.2 hq hgroup'
  rw [markers_around before after hgroup, filled_around, List.map_append, List.sum_append,
    List.map_cons, List.sum_cons]
  omega

/-! ### By a tally -/

/-- There is a group in the slot, the words of which count `n` or more. -/
def HasGroup (T : Tally) (captures : Captures) (slot n : Nat) : Prop :=
  ∃ p, captures.get? slot = some p ∧ p.token.run?.isSome = true ∧ n ≤ T.size p.span

/-- A rule that fits has a group in each slot of a pattern that asks for one. -/
theorem hasGroup_of_fits {α : Type} [Score α] {scene : Scene α} {rule : Rule Context} {c : Context}
    {run taken rest : Run} {entities : EntityCount}
    (h : rule.Fits (grammar scene).accepts c run captures taken rest) (i : Nat)
    (hpattern : rule.pattern[i]? = some (.token (.parts entities))) :
    HasGroup T captures (Pattern.slotsInRow (rule.pattern.take i)) 0 := by
  obtain ⟨hlt, hget⟩ := List.getElem?_eq_some_iff.1 hpattern
  have hrow : rule.pattern =
      rule.pattern.take i ++ .token (.parts entities) :: rule.pattern.drop (i + 1) := by
    rw [← hget, List.getElem_cons_drop, List.take_append_drop]
  obtain ⟨p, hp, hacc⟩ := Pattern.exists_in_slot (hrow ▸ h.reads.eq_readInRow)
  refine ⟨p, hp, ?_, Nat.zero_le _⟩
  have hkind : p.token.kind = .parts entities := eq_of_beq hacc
  cases htoken : p.token <;> first | rfl | (rw [htoken] at hkind; cases hkind)

section
variable (hsound : ∀ p ∈ captures.filled, p.Sound T)
include hsound

/-- The span of the group in a slot is one that the tally is about, and it counts what the group
counts. -/
theorem exists_group_of_spanIn? {span : Span} (h : HasGroup T captures slot 0)
    (hspan : spanIn? captures slot = some span) :
    T.Proper span ∧ HasGroup T captures slot (T.size span) := by
  obtain ⟨p, hp, hgroup, -⟩ := h
  rw [spanIn?, hp] at hspan
  cases hspan
  exact ⟨(hsound p (Captures.mem_filled_of_get? hp)).counts.proper, p, hp, hgroup, Nat.le_refl _⟩

/-- Each mark of intent counts one at least. -/
theorem one_le_reach : ∀ p ∈ captures.filled, p.token.run? = none → 1 ≤ p.reach T :=
  fun p hp _ => Placed.reach_pos (hsound p hp).counts

/-- The marks of intent and the words of a group count no more than all captured tokens. -/
theorem markers_add_le_reach (hn : HasGroup T captures slot n) :
    Context.markers captures + n ≤ captures.filled.reach T := by
  obtain ⟨p, hp, hgroup, hn⟩ := hn
  have hle := markers_add_le (one_le_reach hsound) hp hgroup
  rw [Placed.reach_of_not_marksIntent (Token.marksIntent_of_run? hgroup)] at hle
  exact Nat.le_trans (Nat.add_le_add_left hn _) hle

/-- So do the marks of intent and the words of two groups. -/
theorem markers_add_add_le_reach (hne : slot ≠ other) (hm : HasGroup T captures slot m)
    (hn : HasGroup T captures other n) :
    Context.markers captures + (m + n) ≤ captures.filled.reach T := by
  obtain ⟨p, hp, hgroup, hm⟩ := hm
  obtain ⟨q, hq, hgroup', hn⟩ := hn
  have hle : Context.markers captures + (p.reach T + q.reach T) ≤ captures.filled.reach T := by
    rcases Nat.lt_or_gt_of_ne hne with hlt | hgt
    · exact markers_add_add_le (one_le_reach hsound) hlt hp hgroup hq hgroup'
    · rw [Nat.add_comm (p.reach T)]
      exact markers_add_add_le (one_le_reach hsound) hgt hq hgroup' hp hgroup
  rw [Placed.reach_of_not_marksIntent (Token.marksIntent_of_run? hgroup),
    Placed.reach_of_not_marksIntent (Token.marksIntent_of_run? hgroup')] at hle
  exact Nat.le_trans (Nat.add_le_add_left (Nat.add_le_add hm hn) _) hle

/-- The run of a captured group stands in order between two positions. -/
theorem exists_between_of_groupIn? (h : groupIn? captures slot = some words) :
    ∃ lo hi, HasGroup T captures slot (T.count lo hi) ∧ Run.Between T lo words hi := by
  obtain ⟨p, hp, hrun⟩ := Option.bind_eq_some_iff.1 h
  exact ⟨p.span.start, p.span.stop, ⟨p, hp, by rw [hrun]; rfl, Nat.le_refl _⟩,
    (hsound p (Captures.mem_filled_of_get? hp)).between hrun⟩

/-- A captured group counts no fewer words than it explains. -/
theorem hasGroup_of_groupIn? (h : groupIn? captures slot = some words) :
    HasGroup T captures slot words.explained := by
  obtain ⟨lo, hi, ⟨p, hp, hgroup, hn⟩, hwords⟩ := exists_between_of_groupIn? hsound h
  exact ⟨p, hp, hgroup,
    Nat.le_trans words.explained_le_length (Nat.le_trans hwords.length_le hn)⟩

end

end captures

/-! ## What is built -/

section building
variable {menu : Menu}

/-- New items score no more than their segments explain. -/
theorem score_newItems?_le {segments : List Segment} {items : List Item} {score : Nat}
    (h : newItems? menu segments = some (items, score)) :
    score ≤ Run.explained (segments.flatMap Segment.words) := by
  obtain ⟨-, -, rfl⟩ := newItems?_eq_some h
  clear h
  induction segments with
  | nil => exact Nat.le_refl _
  | cons segment rest ih =>
    rw [List.filterMap_cons, List.flatMap_cons, Run.explained_append]
    split
    · exact Nat.le_trans ih (Nat.le_add_left _ _)
    · next built hbuilt => exact Nat.add_le_add (Menu.score_newItem?_le hbuilt) ih

/-- A replacement scores no more than the reference and the segment that replaces. -/
theorem score_replaceFirst?_le {targets : List (Scored Item)} {segment : Segment} {new : Item}
    {score n : Nat} (htargets : ∀ target ∈ targets, target.score ≤ n)
    (h : replaceFirst? menu targets segment = some (new, score)) :
    score ≤ n + segment.words.explained := by
  obtain ⟨target, htarget, h⟩ := List.exists_of_findSome?_eq_some h
  obtain ⟨built, hbuilt, h⟩ := Option.map_eq_some_iff.1 h
  cases h
  exact Nat.add_le_add (htargets target htarget) (Menu.score_replacement?_le hbuilt)

variable {α : Type} {scene : Scene α} {c next : Context} {captures : Captures} {slot : Nat}

/-- A change scores no more than the marks of intent, the reference and the words that change. -/
theorem score_modifyFirst_le {targets : List (Scored Item)} {words : Run} {n : Nat}
    (htargets : ∀ target ∈ targets, target.score ≤ n)
    (h : modifyFirst scene c captures targets words = some next) :
    next.score ≤ c.score + (Context.markers captures + (n + words.explained)) := by
  obtain ⟨target, htarget, h⟩ := List.exists_of_findSome?_eq_some h
  obtain ⟨new, hnew, rfl⟩ := Option.map_eq_some_iff.1 h
  have hscore := htargets target htarget
  have hscore' := Menu.score_modified?_le hnew
  dsimp only [replaced, Context.edit]
  omega

/-- Besides the marks of intent, the words of a group score one each at most. -/
def ScoredByWords (c next : Context) (captures : Captures) (slot : Nat) : Prop :=
  ∃ words, groupIn? captures slot = some words ∧
    next.score ≤ c.score + (Context.markers captures + words.explained)

/-- So it is where items are added. -/
theorem scoredByWords_of_addNewItems (h : addNewItems scene c captures = some next) :
    ScoredByWords c next captures 2 := by
  obtain ⟨words, hwords, h⟩ := Option.bind_eq_some_iff.1 h
  obtain ⟨⟨items, score⟩, hbest, h⟩ := Option.bind_eq_some_iff.1 h
  obtain ⟨segments, hsegments, hread⟩ := exists_of_bestSegmentation? hbest
  cases h
  have hscore := score_newItems?_le hread
  rw [Run.flatMap_words_of_mem_segmentations hsegments] at hscore
  refine ⟨words, hwords, ?_⟩
  dsimp only [Context.edit]
  omega

/-- The words in any slot may change the item that was added last. -/
theorem scoredByWords_of_changeLast
    (h : (do
      let words ← groupIn? captures slot
      let last ← c.cart.last?
      let new ← scene.menu.modified? last words
      return replaced c captures new 0) = some next) : ScoredByWords c next captures slot := by
  obtain ⟨words, hwords, h⟩ := Option.bind_eq_some_iff.1 h
  obtain ⟨last, -, h⟩ := Option.bind_eq_some_iff.1 h
  obtain ⟨new, hnew, h⟩ := Option.bind_eq_some_iff.1 h
  cases h
  have hscore := Menu.score_modified?_le hnew
  refine ⟨words, hwords, ?_⟩
  dsimp only [replaced, Context.edit]
  omega

end building

/-! ## What is referred to -/

section references
variable {α : Type} [Score α] {scene : Scene α} {T : Tally} {cart : Cart}
  {segments : List Segment} {lo hi : Nat} (hbounds : T.Bounds scene.lattice)
include hbounds

/-- References score no more than the spans of their segments count. -/
theorem score_removals_le (cart : Cart) (found : List Uid × Nat)
    (hspans : ∀ segment ∈ segments, T.Proper segment.span) :
    (removals scene cart found segments).2 ≤
      found.2 + (segments.map (T.size ·.span)).sum := by
  induction segments generalizing found with
  | nil => exact Nat.le_refl _
  | cons segment rest ih =>
    obtain ⟨hspan, hrest⟩ := List.forall_mem_cons.1 hspans
    rw [removals, List.map_cons, List.sum_cons]
    split
    · have hle := ih found hrest
      omega
    · next target htarget =>
      have hscore :=
        Scene.score_le_of_mem_targets hbounds hspan (List.mem_of_find?_eq_some htarget)
      have hle := ih (found.1 ++ [target.value.uid], found.2 + target.score) hrest
      dsimp only at hle
      omega

/-- References to the segments of words in order together score no more than the words count. -/
theorem score_removals?_le {found : List Uid × Nat}
    (hwords : Run.Between T lo (segments.flatMap Segment.words) hi)
    (h : removals? scene cart segments = some found) : found.2 ≤ T.count lo hi := by
  have hspans : ∀ segment ∈ segments, T.Proper segment.span := fun segment hsegment =>
    Segment.span_proper fun p hp =>
      (hwords.counts (List.mem_flatMap.2 ⟨segment, hsegment, hp⟩)).proper
  have hle := score_removals_le hbounds cart ([], 0) hspans
  have hsum := Run.sum_size_span_le hwords
  unfold removals? at h
  split at h
  · cases h
  · cases h
    omega

/-- So do a reference to one of two segments and the replacement that the other builds. -/
theorem score_replaceWithin?_le {new : Item} {score : Nat}
    (hwords : Run.Between T lo (segments.flatMap Segment.words) hi)
    (h : replaceWithin? scene cart segments = some (new, score)) : score ≤ T.count lo hi := by
  unfold replaceWithin? at h
  split at h
  · next old built =>
    simp only [List.flatMap_cons, List.flatMap_nil, List.append_nil] at hwords
    obtain ⟨mid, hold, hnew⟩ := Run.Between.append_iff.1 hwords
    have hproper : T.Proper old.span :=
      Segment.span_proper fun _ hp => (hold.counts hp).proper
    have hspan : T.size old.span ≤ T.count lo mid :=
      T.size_le_of_within (Segment.span_within_iff.2 fun _ hp => hold.within hp)
    have hscore := score_replaceFirst?_le
      (fun _ ht => Scene.score_le_of_mem_targets hbounds hproper ht) h
    have hlength := Nat.le_trans built.words.explained_le_length hnew.length_le
    have hadd := T.count_add_le hold.le hnew.le
    omega
  · cases h

variable {c next : Context} {captures : Captures} {slot : Nat}

/-- To take an option off scores no more than the marks of intent, the reference to the item and the
span of the option. -/
theorem score_removeOption_le {span : Span} {score : Nat} {parent : Item} (hspan : T.Proper span)
    (h : removeOption scene c captures span score parent = some next) :
    next.score ≤ c.score + (Context.markers captures + (score + T.size span)) := by
  obtain ⟨option, hoption, rfl⟩ := Option.map_eq_some_iff.1 h
  have hscore := Scene.score_le_of_mem_optionTargets hbounds hspan (List.mem_of_head? hoption)
  dsimp only [Context.edit]
  omega

/-- The targets in the slot of a group score no more than its words count. -/
theorem exists_group_of_targetsIn (hsound : ∀ p ∈ captures.filled, p.Sound T)
    (h : HasGroup T captures slot 0) : ∃ n, HasGroup T captures slot n ∧
      ∀ target ∈ targetsIn scene c captures slot, target.score ≤ n := by
  obtain ⟨p, hp, hgroup, -⟩ := h
  refine ⟨T.size p.span, ⟨p, hp, hgroup, Nat.le_refl _⟩, fun target htarget => ?_⟩
  rw [targetsIn, spanIn?, hp] at htarget
  exact Scene.score_le_of_mem_targets hbounds
    (hsound p (Captures.mem_filled_of_get? hp)).counts.proper htarget

end references

/-! ## Productions -/

section productions
variable {α : Type} {scene : Scene α} {T : Tally} {c next : Context} {captures : Captures}
  (hsound : ∀ p ∈ captures.filled, p.Sound T)
include hsound

/-- What the words of a group score is no more than all captured tokens count. -/
theorem ScoredByWords.le_reach {slot : Nat} (h : ScoredByWords c next captures slot) :
    next.score ≤ c.score + captures.filled.reach T := by
  obtain ⟨words, hwords, hscore⟩ := h
  have hle := markers_add_le_reach hsound (hasGroup_of_groupIn? hsound hwords)
  omega

variable [Score α] (hbounds : T.Bounds scene.lattice)
include hbounds

/-- The words of one group change what another group refers to. -/
theorem score_changeTarget_le {slot other : Nat} {words : Run} (hne : other ≠ slot)
    (hwords : groupIn? captures slot = some words) (hother : HasGroup T captures other 0)
    (h : modifyFirst scene c captures (targetsIn scene c captures other) words = some next) :
    next.score ≤ c.score + captures.filled.reach T := by
  obtain ⟨n, hn, htargets⟩ := exists_group_of_targetsIn (c := c) hbounds hsound hother
  have hscore := score_modifyFirst_le htargets h
  have hle := markers_add_add_le_reach hsound hne hn (hasGroup_of_groupIn? hsound hwords)
  omega

/-- What is added onto a target scores no more than the captured tokens count. -/
theorem score_addOntoTarget_le (htarget : HasGroup T captures 4 0)
    (h : addOntoTarget scene c captures = some next) :
    next.score ≤ c.score + captures.filled.reach T := by
  obtain ⟨options, hoptions, h⟩ := Option.bind_eq_some_iff.1 h
  exact score_changeTarget_le hsound hbounds (by decide) hoptions htarget h

/-- So does a change to a target. -/
theorem score_modifyTarget_le (htarget : HasGroup T captures 3 0)
    (h : modifyTarget scene c captures = some next) :
    next.score ≤ c.score + captures.filled.reach T := by
  obtain ⟨changes, hchanges, h⟩ := Option.bind_eq_some_iff.1 h
  exact score_changeTarget_le hsound hbounds (by decide) hchanges htarget h

/-- So does a change by the words around the reference itself. -/
theorem score_modifyInPlace_le (h : modifyInPlace scene c captures = some next) :
    next.score ≤ c.score + captures.filled.reach T := by
  obtain ⟨segment, hsegment, h⟩ := Option.bind_eq_some_iff.1 h
  obtain ⟨words, hwords, hsegment⟩ := Option.bind_eq_some_iff.1 hsegment
  obtain ⟨lo, hi, hn, hbetween⟩ := exists_between_of_groupIn? hsound hwords
  -- The entity is referred to, and the words on both sides of it change what it refers to.
  rw [← Run.words_of_segment? hsegment, Segment.words] at hbetween
  obtain ⟨mid, hleft, hstart, hcounts, hright⟩ := Run.Between.append_iff.1 hbetween
  have hscore := score_modifyFirst_le
    (fun _ ht => Scene.score_le_of_mem_targets hbounds hcounts.proper ht) h
  have hlengthLeft := Nat.le_trans segment.left.explained_le_length hleft.length_le
  have hlengthRight := Nat.le_trans segment.right.explained_le_length hright.length_le
  have hentity : T.size segment.entity.span ≤ T.count mid segment.entity.span.stop :=
    T.size_le_of_within ⟨hstart, Nat.le_refl _⟩
  have hmid := Nat.le_trans hstart segment.entity.span.start_le_stop
  have hadd := T.count_add_le hleft.le hmid
  have hadd' := T.count_add_le (Nat.le_trans hleft.le hmid) hright.le
  have hle := markers_add_le_reach hsound hn
  rw [Run.explained_append] at hscore
  omega

/-- So does the replacement of a target. -/
theorem score_replaceTarget_le (htarget : HasGroup T captures 3 0)
    (h : replaceTarget scene c captures = some next) :
    next.score ≤ c.score + captures.filled.reach T := by
  obtain ⟨segment, hsegment, h⟩ := Option.bind_eq_some_iff.1 h
  obtain ⟨words, hwords, hsegment⟩ := Option.bind_eq_some_iff.1 hsegment
  obtain ⟨⟨new, score⟩, hnew, h⟩ := Option.bind_eq_some_iff.1 h
  cases h
  obtain ⟨n, hn, htargets⟩ := exists_group_of_targetsIn (c := c) hbounds hsound htarget
  have hscore := score_replaceFirst?_le htargets hnew
  rw [Run.words_of_segment? hsegment] at hscore
  have hle :=
    markers_add_add_le_reach hsound (by decide) hn (hasGroup_of_groupIn? hsound hwords)
  dsimp only [Context.edit]
  omega

/-- So does a replacement in which one group says both the old item and the new one. -/
theorem score_replaceInGroup_le (h : replaceInGroup scene c captures = some next) :
    next.score ≤ c.score + captures.filled.reach T := by
  obtain ⟨words, hwords, h⟩ := Option.bind_eq_some_iff.1 h
  obtain ⟨⟨new, score⟩, hbest, h⟩ := Option.bind_eq_some_iff.1 h
  obtain ⟨segments, hsegments, hread⟩ := exists_of_bestSegmentation? hbest
  cases h
  obtain ⟨lo, hi, hn, hbetween⟩ := exists_between_of_groupIn? hsound hwords
  rw [← Run.flatMap_words_of_mem_segmentations hsegments] at hbetween
  have hscore := score_replaceWithin?_le hbounds hbetween hread
  have hle := markers_add_le_reach hsound hn
  dsimp only [Context.edit]
  omega

/-- So does the removal of items. -/
theorem score_removeItems_le (h : removeItems scene c captures = some next) :
    next.score ≤ c.score + captures.filled.reach T := by
  obtain ⟨words, hwords, h⟩ := Option.bind_eq_some_iff.1 h
  obtain ⟨⟨uids, score⟩, hbest, h⟩ := Option.bind_eq_some_iff.1 h
  obtain ⟨segments, hsegments, hread⟩ := exists_of_bestSegmentation? hbest
  cases h
  obtain ⟨lo, hi, hn, hbetween⟩ := exists_between_of_groupIn? hsound hwords
  rw [← Run.flatMap_words_of_mem_segmentations hsegments] at hbetween
  have hscore := score_removals?_le hbounds hbetween hread
  have hle := markers_add_le_reach hsound hn
  dsimp only [Context.edit] at hscore ⊢
  omega

/-- So does an option taken off a target. -/
theorem score_removeOptionFromTarget_le (hoption : HasGroup T captures 2 0)
    (htarget : HasGroup T captures 4 0) (h : removeOptionFromTarget scene c captures = some next) :
    next.score ≤ c.score + captures.filled.reach T := by
  obtain ⟨span, hspan, h⟩ := Option.bind_eq_some_iff.1 h
  obtain ⟨target, hmem, h⟩ := List.exists_of_findSome?_eq_some h
  obtain ⟨n, hn, htargets⟩ := exists_group_of_targetsIn (c := c) hbounds hsound htarget
  obtain ⟨hproper, hwords⟩ := exists_group_of_spanIn? hsound hoption hspan
  have hscore := score_removeOption_le hbounds hproper h
  have hscore' := htargets target hmem
  have hle := markers_add_add_le_reach hsound (by decide) hn hwords
  omega

/-- So does an option taken off the latest item that has one. -/
theorem score_removeOptionFromLatest_le (hoption : HasGroup T captures 2 0)
    (h : removeOptionFromLatest scene c captures = some next) :
    next.score ≤ c.score + captures.filled.reach T := by
  obtain ⟨span, hspan, h⟩ := Option.bind_eq_some_iff.1 h
  obtain ⟨parent, -, h⟩ := List.exists_of_findSome?_eq_some h
  obtain ⟨hproper, hwords⟩ := exists_group_of_spanIn? hsound hoption hspan
  have hscore := score_removeOption_le hbounds hproper h
  have hle := markers_add_le_reach hsound hwords
  omega

end productions

/-! ## The grammar -/

section grammar
variable {α : Type} [Score α] {scene : Scene α} {T : Tally} {rule : Rule Context}
  {c next : Context} {run taken rest : Run} {captures : Captures}

/-- A production scores no more than the tokens that its rule takes count. -/
theorem score_le_of_production (hbounds : T.Bounds scene.lattice)
    (hrule : rule ∈ (grammar scene).rules)
    (hfits : rule.Fits (grammar scene).accepts c run captures taken rest)
    (hsound : ∀ p ∈ taken, p.Sound T)
    (h : rule.production c captures taken.length = some next) :
    next.score ≤ c.score + taken.reach T := by
  rw [hfits.taken_eq] at hsound ⊢
  simp only [grammar, Grammar.ofRules, addRules, removeRules, modifyRules, Rule.plain,
    List.cons_append, List.nil_append, List.mem_cons, List.not_mem_nil, or_false] at hrule
  rcases hrule with rfl | rfl | rfl | rfl | rfl | rfl | rfl | rfl | rfl | rfl | rfl | rfl
  · exact score_addOntoTarget_le hsound hbounds (hasGroup_of_fits hfits 4 rfl) h
  · exact ScoredByWords.le_reach hsound (scoredByWords_of_changeLast h)
  · exact ScoredByWords.le_reach hsound (scoredByWords_of_addNewItems h)
  · exact ScoredByWords.le_reach hsound (scoredByWords_of_changeLast h)
  · exact score_removeItems_le hsound hbounds h
  · exact score_removeOptionFromTarget_le hsound hbounds (hasGroup_of_fits hfits 2 rfl)
      (hasGroup_of_fits hfits 4 rfl) h
  · exact score_removeOptionFromLatest_le hsound hbounds (hasGroup_of_fits hfits 2 rfl) h
  · exact score_modifyTarget_le hsound hbounds (hasGroup_of_fits hfits 3 rfl) h
  · exact ScoredByWords.le_reach hsound (scoredByWords_of_changeLast h)
  · exact score_replaceTarget_le hsound hbounds (hasGroup_of_fits hfits 3 rfl) h
  · exact score_replaceInGroup_le hsound hbounds h
  · exact score_modifyInPlace_le hsound hbounds h

/-- The rules that build an item from words, or change the last one, without looking any up. -/
def buildingRules : List String :=
  ["add: options onto implicit target", "add: new items", "add: options onto last item",
    "modify: most recent item"]

omit [Score α] in
/-- What the words of a group score is no more than there are captured tokens. -/
theorem ScoredByWords.le_tokenCount {slot : Nat} (h : ScoredByWords c next captures slot) :
    next.score ≤ c.score + captures.filled.tokenCount := by
  obtain ⟨words, hwords, hscore⟩ := h
  obtain ⟨p, hp, hrun⟩ := Option.bind_eq_some_iff.1 hwords
  have hone : ∀ q ∈ captures.filled, q.token.run? = none → 1 ≤ q.tokenCount := by
    intro q _ hnone
    rw [Placed.tokenCount, hnone]
    exact Nat.le_refl _
  have hle := markers_add_le hone hp (by rw [hrun]; rfl)
  rw [Run.sum_map_tokenCount, Placed.tokenCount, hrun] at hle
  have hexplained : words.explained ≤ ((some words).map List.length).getD 1 :=
    words.explained_le_length
  omega

/-- A production of a building rule scores no more than the tokens that the rule takes stand for. -/
theorem score_le_of_building (hrule : rule ∈ (grammar scene).rules)
    (hname : rule.name ∈ buildingRules)
    (hfits : rule.Fits (grammar scene).accepts c run captures taken rest)
    (h : rule.production c captures taken.length = some next) :
    next.score ≤ c.score + taken.tokenCount := by
  rw [hfits.taken_eq]
  simp only [grammar, Grammar.ofRules, addRules, removeRules, modifyRules, Rule.plain,
    List.cons_append, List.nil_append, List.mem_cons, List.not_mem_nil, or_false] at hrule
  rcases hrule with rfl | rfl | rfl | rfl | rfl | rfl | rfl | rfl | rfl | rfl | rfl | rfl
  · simp [buildingRules] at hname
  · exact (scoredByWords_of_changeLast h).le_tokenCount
  · exact (scoredByWords_of_addNewItems h).le_tokenCount
  · exact (scoredByWords_of_changeLast h).le_tokenCount
  · simp [buildingRules] at hname
  · simp [buildingRules] at hname
  · simp [buildingRules] at hname
  · simp [buildingRules] at hname
  · exact (scoredByWords_of_changeLast h).le_tokenCount
  · simp [buildingRules] at hname
  · simp [buildingRules] at hname
  · simp [buildingRules] at hname

/-- What a run of the grammar scores more than before is no more than its tokens count. -/
theorem score_process_le (hbounds : T.Bounds scene.lattice) (hsound : ∀ p ∈ run, p.Sound T) :
    ((grammar scene).process c run).1.score ≤ c.score + run.reach T :=
  ((grammar scene).runs_process c run).measure_le (fun _ hrule _ _ _ _ _ _ _ hfits htaken hprod =>
    score_le_of_production hbounds hrule hfits htaken hprod) hsound

/-- If only building rules have fired, it is no more than the tokens stand for. -/
theorem score_process_le_tokenCount
    (hnames : ∀ name ∈ ((grammar scene).process c run).2, name ∈ buildingRules) :
    ((grammar scene).process c run).1.score ≤ c.score + run.tokenCount := by
  rw [← Run.sum_map_tokenCount]
  refine ((grammar scene).runs_process c run).measure_le (P := fun _ => True)
    (fun rule hrule hname _ _ _ _ _ _ hfits _ hprod => ?_) fun _ _ => trivial
  rw [Run.sum_map_tokenCount]
  exact score_le_of_building hrule (hnames _ hname) hfits hprod

end grammar

end SpokenOrder.Intent
