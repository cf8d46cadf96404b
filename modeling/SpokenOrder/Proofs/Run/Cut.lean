import Mathlib.Algebra.BigOperators.Group.List.Basic
import Mathlib.Algebra.Ring.Nat
import SpokenOrder.Proofs.Run.Odometer
import SpokenOrder.Proofs.Run.Segment

/-!
# Where gaps are cut

Segments with one entity each are a segmentation of their words (`Run.mem_segmentations_iff`), so a
run has all the segmentations that it can have. What tells them apart is where they cut the gaps
between the entities: there is one for each way to cut these, in the lexicographic order of the
cuts, in which an odometer turns them (`Run.segmentations_share_words`).
-/

namespace SpokenOrder

/-- The token in the middle of the segment is an entity, and no other token is one. -/
structure Segment.OneEntity (s : Segment) : Prop where
  entity : s.entity.token.kind = .entity
  left : ∀ p ∈ s.left, p.token.kind ≠ .entity
  right : ∀ p ∈ s.right, p.token.kind ≠ .entity

namespace Run

variable {run left : Run} {entities : List (Placed Token × Run)} {segments : List Segment}

/-- The gaps between the entities of a run. -/
def innerGaps (run : Run) : List Run := run.splitOnEntities.2.dropLast.map (·.2)

/-- How many tokens of each gap between two entities belong to the segment before it. -/
def cuts (segments : List Segment) : List Nat := segments.dropLast.map (·.right.length)

/-- The first cut of some segments is how much of the gap the first one takes. -/
theorem cuts_cons {segment : Segment} (h : segments ≠ []) :
    cuts (segment :: segments) = segment.right.length :: cuts segments := by
  rw [cuts, List.dropLast_cons_of_ne_nil h]
  rfl

/-! ## Entities and gaps -/

/-- The run is a gap, and then some entities, each with the gap behind it. No gap has an entity. -/
structure SplitsInto (run first : Run) (entities : List (Placed Token × Run)) : Prop where
  words : first ++ entities.flatMap (fun e => e.1 :: e.2) = run
  gap : ∀ p ∈ first, p.token.kind ≠ .entity
  entities : ∀ e ∈ entities, e.1.token.kind = .entity ∧ ∀ p ∈ e.2, p.token.kind ≠ .entity

/-- A run splits at its entities into the words before and the gaps behind. -/
theorem splitsInto_splitOnEntities (run : Run) :
    run.SplitsInto run.splitOnEntities.1 run.splitOnEntities.2 := by
  induction run with
  | nil => exact ⟨rfl, List.forall_mem_nil _, List.forall_mem_nil _⟩
  | cons p rest ih =>
    refine ⟨splitOnEntities_append _, ?_, ?_⟩
    all_goals
      rw [splitOnEntities]
      dsimp only
      split
    · exact List.forall_mem_nil _
    · next hp => exact List.forall_mem_cons.2 ⟨by simpa using hp, ih.gap⟩
    · next hp => exact List.forall_mem_cons.2 ⟨⟨by simpa using hp, ih.gap⟩, ih.entities⟩
    · exact ih.entities

/-- There is nothing to split at where no token is an entity. -/
theorem splitOnEntities_snd_eq_nil_iff :
    run.splitOnEntities.2 = [] ↔ ∀ p ∈ run, p.token.kind ≠ .entity := by
  rw [← List.map_eq_nil_iff (f := Prod.fst), map_fst_splitOnEntities, List.filter_eq_nil_iff]
  simp

/-- What segments with one entity each split into. -/
theorem splitOnEntities_flatMap_words {segment : Segment} (h : segment.OneEntity)
    (segments : List Segment) :
    splitOnEntities ((segment :: segments).flatMap Segment.words) =
      (segment.left,
        (segment.entity,
          segment.right ++ (splitOnEntities (segments.flatMap Segment.words)).1) ::
        (splitOnEntities (segments.flatMap Segment.words)).2) := by
  rw [List.flatMap_cons, Segment.words, List.append_assoc, List.cons_append,
    splitOnEntities_append_of_no_entity h.left, splitOnEntities_cons_of_entity h.entity,
    splitOnEntities_append_of_no_entity h.right, List.append_nil]

/-- A run is a segment if it has exactly one entity. -/
theorem segment?_eq_some_iff {segment : Segment} :
    run.segment? = some segment ↔ segment.OneEntity ∧ segment.words = run := by
  constructor
  · intro h
    refine ⟨?_, words_of_segment? h⟩
    unfold segment? at h
    split at h
    · next left entity right heq =>
      cases h
      have hsplit := splitsInto_splitOnEntities run
      rw [heq] at hsplit
      obtain ⟨hentity, hright⟩ := hsplit.entities _ (List.mem_singleton_self _)
      exact ⟨hentity, hsplit.gap, hright⟩
    · cases h
  · rintro ⟨h, rfl⟩
    exact segment?_around h.left h.entity h.right

/-! ## Which segmentations there are -/

/-- Where the words are shared, there are segments. -/
theorem ne_nil_of_mem_share (h : segments ∈ share left entities) : segments ≠ [] := by
  match entities with
  | [] => cases h
  | [(entity, gap)] =>
    rw [List.mem_singleton.1 h]
    exact List.cons_ne_nil _ _
  | (entity, gap) :: next :: rest =>
    obtain ⟨cut, -, h⟩ := List.mem_flatMap.1 h
    obtain ⟨later, -, rfl⟩ := List.mem_map.1 h
    exact List.cons_ne_nil _ _

/-- Gaps are shared, and entities are not. -/
theorem oneEntity_of_mem_share (hleft : ∀ p ∈ left, p.token.kind ≠ .entity)
    (hentities : ∀ e ∈ entities,
      e.1.token.kind = .entity ∧ ∀ p ∈ e.2, p.token.kind ≠ .entity)
    (h : segments ∈ share left entities) : ∀ s ∈ segments, s.OneEntity := by
  induction entities generalizing left segments with
  | nil => cases h
  | cons first rest ih =>
    obtain ⟨entity, gap⟩ := first
    obtain ⟨⟨hentity, hgap⟩, hrest⟩ := List.forall_mem_cons.1 hentities
    cases rest with
    | nil =>
      rw [List.mem_singleton.1 h, List.forall_mem_singleton]
      exact ⟨hentity, hleft, hgap⟩
    | cons next rest =>
      obtain ⟨cut, -, h⟩ := List.mem_flatMap.1 h
      obtain ⟨later, hlater, rfl⟩ := List.mem_map.1 h
      refine List.forall_mem_cons.2 ⟨⟨hentity, hleft, fun p hp => ?_⟩, ih ?_ hrest hlater⟩
      · exact hgap p (List.mem_of_mem_take hp)
      · exact fun p hp => hgap p (List.mem_of_mem_drop hp)

/-- Segments with one entity each are a segmentation of their words. -/
theorem mem_segmentations_flatMap_words : ∀ {segments : List Segment}, segments ≠ [] →
    (∀ s ∈ segments, s.OneEntity) →
    segments ∈ segmentations (segments.flatMap Segment.words)
  | [segment], _, h => by
    rw [segmentations, splitOnEntities_flatMap_words (List.forall_mem_singleton.1 h),
      List.flatMap_nil, splitOnEntities, List.append_nil]
    exact List.mem_singleton_self _
  | segment :: next :: rest, _, h => by
    obtain ⟨hsegment, hrest⟩ := List.forall_mem_cons.1 h
    have hlater := mem_segmentations_flatMap_words (List.cons_ne_nil next rest) hrest
    have hnext := splitOnEntities_flatMap_words (List.forall_mem_cons.1 hrest).1 rest
    rw [segmentations, hnext] at hlater
    rw [segmentations, splitOnEntities_flatMap_words hsegment, hnext]
    -- The gap behind the entity is cut where the segment ends.
    refine List.mem_flatMap.2 ⟨segment.right.length, ?_, ?_⟩
    · rw [List.mem_range, List.length_append]
      omega
    · rw [List.drop_left, List.take_left]
      exact List.mem_map_of_mem hlater

/-- The segmentations of a run are the segments with one entity each whose words are the run. -/
theorem mem_segmentations_iff : segments ∈ run.segmentations ↔
    segments ≠ [] ∧ (∀ s ∈ segments, s.OneEntity) ∧ segments.flatMap Segment.words = run := by
  constructor
  · intro h
    have hsplit := splitsInto_splitOnEntities run
    exact ⟨ne_nil_of_mem_share h, oneEntity_of_mem_share hsplit.gap hsplit.entities h,
      flatMap_words_of_mem_segmentations h⟩
  · rintro ⟨hne, hentities, rfl⟩
    exact mem_segmentations_flatMap_words hne hentities

/-! ## In which order they come -/

/-- The ways to share the gaps are listed by their cuts in lexicographic order. -/
theorem pairwise_share (left : Run) (entities : List (Placed Token × Run)) :
    (share left entities).Pairwise fun a b => cuts a < cuts b := by
  induction entities generalizing left with
  | nil => exact .nil
  | cons first rest ih =>
    obtain ⟨entity, gap⟩ := first
    cases rest with
    | nil => exact List.pairwise_singleton _ _
    | cons next rest =>
      have hcuts : ∀ {cut : Nat}, cut ∈ List.range (gap.length + 1) →
          ∀ {later : List Segment}, later ∈ share (gap.drop cut) (next :: rest) →
          cuts (⟨left, entity, gap.take cut⟩ :: later) = cut :: cuts later := by
        intro cut hcut later hlater
        rw [cuts_cons (ne_nil_of_mem_share hlater), List.length_take,
          Nat.min_eq_left (Nat.le_of_lt_succ (List.mem_range.1 hcut))]
      rw [share, List.pairwise_flatMap]
      constructor
      · -- Where the first cut is the same, the later ones decide.
        intro cut hcut
        refine List.pairwise_map.2 ((ih (gap.drop cut)).imp_of_mem fun ha hb hlt => ?_)
        rw [hcuts hcut ha, hcuts hcut hb]
        exact List.cons_lt_cons_iff.2 (.inr ⟨rfl, hlt⟩)
      · refine List.pairwise_lt_range.imp_of_mem fun hcut hcut' hlt a ha b hb => ?_
        obtain ⟨later, hlater, rfl⟩ := List.mem_map.1 ha
        obtain ⟨later', hlater', rfl⟩ := List.mem_map.1 hb
        rw [hcuts hcut hlater, hcuts hcut' hlater']
        exact List.cons_lt_cons_iff.2 (.inl hlt)

/-- Each gap between two entities can be cut before, behind or between any of its tokens, whatever
the other cuts are. -/
theorem exists_mem_share_iff (left : Run) (hne : entities ≠ []) {cs : List Nat} :
    (∃ segments ∈ share left entities, cuts segments = cs) ↔
      List.Forall₂ (fun cut gap => cut ≤ gap.length) cs (entities.dropLast.map (·.2)) := by
  induction entities generalizing left cs with
  | nil => exact absurd rfl hne
  | cons first rest ih =>
    obtain ⟨entity, gap⟩ := first
    cases rest with
    | nil =>
      rw [List.dropLast_singleton, List.map_nil, List.forall₂_nil_right_iff]
      constructor
      · rintro ⟨segments, h, rfl⟩
        rw [List.mem_singleton.1 h]
        rfl
      · rintro rfl
        exact ⟨_, List.mem_singleton_self _, rfl⟩
    | cons next rest =>
      have hnext : next :: rest ≠ [] := List.cons_ne_nil next rest
      rw [List.dropLast_cons_of_ne_nil hnext, List.map_cons, List.forall₂_cons_right_iff]
      constructor
      · rintro ⟨segments, h, rfl⟩
        obtain ⟨cut, hcut, h⟩ := List.mem_flatMap.1 h
        obtain ⟨later, hlater, rfl⟩ := List.mem_map.1 h
        refine ⟨_, _, ?_, (ih _ hnext).1 ⟨later, hlater, rfl⟩,
          cuts_cons (ne_nil_of_mem_share hlater)⟩
        exact List.length_take_le' _ _
      · rintro ⟨cut, later, hcut, hlater, rfl⟩
        obtain ⟨segments, hsegments, rfl⟩ := (ih (gap.drop cut) hnext).2 hlater
        refine ⟨⟨left, entity, gap.take cut⟩ :: segments, ?_, ?_⟩
        · refine List.mem_flatMap.2 ⟨cut, List.mem_range.2 (Nat.lt_succ_of_le hcut), ?_⟩
          exact List.mem_map_of_mem hsegments
        · rw [cuts_cons (ne_nil_of_mem_share hsegments), List.length_take, Nat.min_eq_left hcut]

/-- Each gap but the last can be cut at any place, independent of the others. -/
theorem length_share (left : Run) (hne : entities ≠ []) : (share left entities).length =
    ((entities.dropLast.map (·.2)).map fun gap => gap.length + 1).prod := by
  induction entities generalizing left with
  | nil => exact absurd rfl hne
  | cons first rest ih =>
    obtain ⟨entity, gap⟩ := first
    cases rest with
    | nil => rfl
    | cons next rest =>
      have hnext : next :: rest ≠ [] := List.cons_ne_nil next rest
      rw [share, List.length_flatMap, List.dropLast_cons_of_ne_nil hnext]
      simp only [List.length_map, ih _ hnext, List.map_cons, List.prod_cons, List.map_const',
        List.length_range, List.sum_replicate_nat]

end Run

/-! ## Where the segments stand -/

/-- If all words of one segment stand before those of another, so does its span. -/
theorem Segment.stop_span_le {s t : Segment}
    (h : ∀ p ∈ s.words, ∀ q ∈ t.words, p.span.stop ≤ q.span.start) :
    s.span.stop ≤ t.span.start := by
  have hwords : ∀ q ∈ t.words, s.span.stop ≤ q.span.start := fun q hq =>
    (Segment.span_within_iff.2 fun p hp => ⟨Nat.zero_le _, h p hp q hq⟩).2
  have hstops : ∀ q ∈ t.words, q.span.stop ≤ t.span.stop := fun q hq =>
    (Segment.span_within_iff.1 t.span.within_self q hq).2
  exact (Segment.span_within_iff.2 fun q hq => ⟨hwords q hq, hstops q hq⟩).1

/-- One pass over a run finds its entities and the gaps around them, an odometer of cuts comes to a
stop, and the segmentations are what the cuts that it has shown by then slice the gaps into. They
are all the ways to share the tokens of the run among segments with one entity each. They come in
the lexicographic order of their cuts, and there is one for each way to cut the gaps between the
entities; without an entity there is none. Where the tokens of the run stand one behind another, so
do the segments. -/
theorem Run.segmentations_share_words (run : Run) :
    run.SplitsInto run.splitOnEntities.1 run.splitOnEntities.2 ∧
    run.pass = (run.entities, run.gaps) ∧
    (∃ shown, TurnsTo (run.pass.2.map List.length) (odometerStart (run.pass.2.map List.length))
        ⟨none, shown⟩ ∧ run.segmentations = shown.map (slices run.pass.1 run.pass.2)) ∧
    (∀ segments, segments ∈ run.segmentations ↔ segments ≠ [] ∧
      (∀ s ∈ segments, s.OneEntity) ∧ segments.flatMap Segment.words = run) ∧
    (run.segmentations.Pairwise fun a b => cuts a < cuts b) ∧
    ((∃ p ∈ run, p.token.kind = .entity) →
      (∀ cs, (∃ segments ∈ run.segmentations, cuts segments = cs) ↔
        List.Forall₂ (fun cut gap => cut ≤ gap.length) cs run.innerGaps) ∧
      run.segmentations.length = (run.innerGaps.map fun gap => gap.length + 1).prod) ∧
    ((∀ p ∈ run, p.token.kind ≠ .entity) → run.segmentations = []) ∧
    ((run.Pairwise fun p q => p.span.stop ≤ q.span.start) → ∀ segments ∈ run.segmentations,
      segments.Pairwise fun s t => s.span.stop ≤ t.span.start) := by
  refine ⟨run.splitsInto_splitOnEntities, run.pass_eq, ?_, fun _ => mem_segmentations_iff,
    pairwise_share _ _, ?_, ?_, ?_⟩
  · rw [run.pass_eq]
    exact ⟨_, turnsTo_allCuts _, run.segmentations_eq_map_slices⟩
  · rintro ⟨p, hp, hentity⟩
    have hne : run.splitOnEntities.2 ≠ [] := fun hnil =>
      splitOnEntities_snd_eq_nil_iff.1 hnil p hp hentity
    exact ⟨fun _ => exists_mem_share_iff _ hne, length_share _ hne⟩
  · intro hnone
    rw [segmentations, splitOnEntities_of_no_entity hnone]
    rfl
  · intro hordered segments hsegments
    rw [← flatMap_words_of_mem_segmentations hsegments, List.pairwise_flatMap] at hordered
    exact hordered.2.imp Segment.stop_span_le

/-- The words "large coffee with milk small cone", of which two stand between the entities. -/
def Run.coffeeAndCone : Run :=
  [⟨.attribute 3 "large", ⟨0, 1⟩⟩, ⟨.entity 9100 "coffee", ⟨1, 1⟩⟩, ⟨.option 5000 "milk", ⟨3, 1⟩⟩,
    ⟨.attribute 1 "small", ⟨4, 1⟩⟩, ⟨.entity 9000 "cone", ⟨5, 1⟩⟩]

/-- The two words can be shared in three ways, and each leaves the coffee before the cone. -/
theorem Run.segmentations_coffeeAndCone :
    (∃ p ∈ coffeeAndCone, p.token.kind = .entity) ∧
      (coffeeAndCone.Pairwise fun p q => p.span.stop ≤ q.span.start) ∧
      coffeeAndCone.segmentations.map cuts = [[0], [1], [2]] ∧
      coffeeAndCone.segmentations.length = 3 ∧
      ∀ segments ∈ coffeeAndCone.segmentations,
        segments.Pairwise fun s t => s.span.stop ≤ t.span.start := by
  have hentity : ∃ p ∈ coffeeAndCone, p.token.kind = .entity := by decide
  have hordered : coffeeAndCone.Pairwise fun p q => p.span.stop ≤ q.span.start := by decide
  obtain ⟨-, -, -, -, -, hcuts, -, hspans⟩ := segmentations_share_words coffeeAndCone
  exact ⟨hentity, hordered, by decide, (hcuts hentity).2, hspans hordered⟩

end SpokenOrder
