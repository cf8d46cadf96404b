import SpokenOrder.Grouping
import SpokenOrder.Proofs.Run.Span
import SpokenOrder.Segment

/-!
# Where segments stand

A segmentation shares all tokens of its run among the segments, in their order
(`Run.flatMap_words_of_mem_segmentations`), and each entity of the run has a segment of its own
(`Run.map_entity_of_mem_segmentations`). So the spans of the segments do not overlap, and together
they count no more than the words between which the run stands (`Run.sum_size_span_le`).
-/

namespace SpokenOrder

namespace Run

variable {run : Run} {lo hi : Nat}

/-! ## The words of segments -/

/-- The words before the first entity and the entities with the gaps behind them are the whole run.
-/
theorem splitOnEntities_append (run : Run) :
    run.splitOnEntities.1 ++ run.splitOnEntities.2.flatMap (fun e => e.1 :: e.2) = run := by
  induction run with
  | nil => rfl
  | cons p rest ih =>
    rw [splitOnEntities]
    dsimp only
    split
    · rw [List.nil_append, List.flatMap_cons, List.cons_append, ih]
    · rw [List.cons_append, ih]

/-- However the gaps are shared, the segments have all the words in order. -/
theorem flatMap_words_of_mem_share {left : Run} {entities : List (Placed Token × Run)}
    {segments : List Segment} (h : segments ∈ share left entities) :
    segments.flatMap Segment.words = left ++ entities.flatMap fun e => e.1 :: e.2 := by
  induction entities generalizing left segments with
  | nil => cases h
  | cons first rest ih =>
    obtain ⟨entity, gap⟩ := first
    cases rest with
    | nil =>
      rw [List.mem_singleton.1 h]
      simp [Segment.words]
    | cons next rest =>
      obtain ⟨cut, -, h⟩ := List.mem_flatMap.1 h
      obtain ⟨later, hlater, rfl⟩ := List.mem_map.1 h
      have hgap (behind : Run) : gap.take cut ++ (gap.drop cut ++ behind) = gap ++ behind := by
        rw [← List.append_assoc, List.take_append_drop]
      rw [List.flatMap_cons, ih hlater, Segment.words, List.flatMap_cons (x := (entity, gap)),
        List.append_assoc, List.cons_append, List.cons_append, hgap]

/-- A segmentation shares all tokens of the run, in their order. -/
theorem flatMap_words_of_mem_segmentations {segments : List Segment}
    (h : segments ∈ run.segmentations) : segments.flatMap Segment.words = run :=
  (flatMap_words_of_mem_share h).trans run.splitOnEntities_append

/-- The segment that a run is has all tokens of the run. -/
theorem words_of_segment? {segment : Segment} (h : run.segment? = some segment) :
    segment.words = run := by
  have hsplit := run.splitOnEntities_append
  unfold segment? at h
  split at h
  · next left entity right heq =>
    cases h
    rw [heq] at hsplit
    simpa [Segment.words] using hsplit
  · cases h

/-! ## The entities of segments -/

/-- A run is split at each of its entities. -/
theorem map_fst_splitOnEntities (run : Run) :
    run.splitOnEntities.2.map (·.1) = run.filter (·.token.kind == .entity) := by
  induction run with
  | nil => rfl
  | cons p rest ih =>
    rw [splitOnEntities, List.filter_cons]
    dsimp only
    split
    · rw [List.map_cons, ih]
    · exact ih

/-- However the gaps are shared, there is one segment for each entity. -/
theorem map_entity_of_mem_share {left : Run} {entities : List (Placed Token × Run)}
    {segments : List Segment} (h : segments ∈ share left entities) :
    segments.map (·.entity) = entities.map (·.1) := by
  induction entities generalizing left segments with
  | nil => cases h
  | cons first rest ih =>
    obtain ⟨entity, gap⟩ := first
    cases rest with
    | nil => rw [List.mem_singleton.1 h]; rfl
    | cons next rest =>
      obtain ⟨cut, -, h⟩ := List.mem_flatMap.1 h
      obtain ⟨later, hlater, rfl⟩ := List.mem_map.1 h
      rw [List.map_cons, List.map_cons, ih hlater]

/-- A segmentation has one segment for each entity of the run, in their order. -/
theorem map_entity_of_mem_segmentations {segments : List Segment}
    (h : segments ∈ run.segmentations) :
    segments.map (·.entity) = run.filter (·.token.kind == .entity) :=
  (map_entity_of_mem_share h).trans run.map_fst_splitOnEntities

/-- A segmentation has as many segments as there are entities. -/
theorem length_of_mem_segmentations {segments : List Segment} (h : segments ∈ run.segmentations) :
    segments.length = run.entityCount := by
  rw [entityCount, List.countP_eq_length_filter, ← map_entity_of_mem_segmentations h,
    List.length_map]

/-- The products that a run names, in their order. -/
def entityPids (run : Run) : List Pid :=
  run.filterMap fun p => match p.token with
    | .entity pid _ => some pid
    | _ => none

/-- The segments of a segmentation are about the products that the run names. -/
theorem filterMap_pid?_of_mem_segmentations {segments : List Segment}
    (h : segments ∈ run.segmentations) : segments.filterMap Segment.pid? = run.entityPids := by
  have hpids : segments.filterMap Segment.pid? = entityPids (segments.map (·.entity)) := by
    rw [entityPids, List.filterMap_map]
    rfl
  rw [hpids, map_entity_of_mem_segmentations h, entityPids, List.filterMap_filter]
  refine List.filterMap_congr fun p _ => ?_
  obtain ⟨token, span⟩ := p
  cases token <;> rfl

/-! ## One entity -/

/-- Tokens in front of a run that are no entities belong to its first gap. -/
theorem splitOnEntities_append_of_no_entity {left : Run}
    (h : ∀ p ∈ left, p.token.kind ≠ .entity) (run : Run) :
    (left ++ run).splitOnEntities = (left ++ run.splitOnEntities.1, run.splitOnEntities.2) := by
  induction left with
  | nil => rfl
  | cons p left ih =>
    obtain ⟨hp, hleft⟩ := List.forall_mem_cons.1 h
    simp [splitOnEntities, ih hleft, hp]

/-- Behind an entity in front of a run is the first gap of the run. -/
theorem splitOnEntities_cons_of_entity {entity : Placed Token}
    (h : entity.token.kind = .entity) (run : Run) :
    splitOnEntities (entity :: run) =
      ([], (entity, run.splitOnEntities.1) :: run.splitOnEntities.2) := by
  simp [splitOnEntities, h]

/-- Without an entity all words are before the first. -/
theorem splitOnEntities_of_no_entity (h : ∀ p ∈ run, p.token.kind ≠ .entity) :
    run.splitOnEntities = (run, []) := by
  have hsplit := splitOnEntities_append_of_no_entity h []
  rwa [List.append_nil, splitOnEntities, List.append_nil] at hsplit

/-- A run in which no other token is an entity is the segment of its entity. -/
theorem segment?_around {left right : Run} {entity : Placed Token}
    (hleft : ∀ p ∈ left, p.token.kind ≠ .entity) (hentity : entity.token.kind = .entity)
    (hright : ∀ p ∈ right, p.token.kind ≠ .entity) :
    segment? (left ++ entity :: right) = some ⟨left, entity, right⟩ := by
  rw [segment?, splitOnEntities_append_of_no_entity hleft, splitOnEntities_cons_of_entity hentity,
    splitOnEntities_of_no_entity hright, List.append_nil]

end Run

/-! ## The spans of segments -/

namespace Segment

variable {segment : Segment} {lo hi : Nat}

/-- The entity of a segment names its product. -/
theorem exists_entity_of_pid? {pid : Pid} (h : segment.pid? = some pid) :
    ∃ name, segment.entity.token = .entity pid name := by
  unfold pid? at h
  split at h
  · next name heq => cases h; exact ⟨name, heq⟩
  · cases h

/-- A span that is widened over a run lies between two positions if and only if it did and the run
does. -/
theorem widened_within_iff {s : Span} {run : Run} :
    ((run.span?.map s.cover).getD s).Within lo hi ↔
      s.Within lo hi ∧ ∀ p ∈ run, p.span.Within lo hi := by
  cases hspan : run.span? with
  | none =>
    obtain rfl : run = [] := by
      cases run with
      | nil => rfl
      | cons p rest => cases hspan
    simp
  | some t =>
    show (s.cover t).Within lo hi ↔ _
    rw [Span.cover_within_iff, Run.within_iff_of_span? hspan]

/-- A tally stays about a span that is widened over a run. -/
theorem widened_proper {T : Tally} {s : Span} {run : Run} (hs : T.Proper s)
    (hrun : ∀ p ∈ run, T.Proper p.span) : T.Proper ((run.span?.map s.cover).getD s) := by
  cases hspan : run.span? with
  | none => exact hs
  | some t => exact T.proper_cover hs (Run.proper_of_span? hspan hrun)

/-- The span of a segment lies between two positions if and only if its words do. -/
theorem span_within_iff :
    segment.span.Within lo hi ↔ ∀ p ∈ segment.words, p.span.Within lo hi := by
  rw [span, widened_within_iff, widened_within_iff, words, List.forall_mem_append,
    List.forall_mem_cons, and_assoc]
  exact ⟨fun ⟨hentity, hleft, hright⟩ => ⟨hleft, hentity, hright⟩,
    fun ⟨hleft, hentity, hright⟩ => ⟨hentity, hleft, hright⟩⟩

/-- A tally is about the span of a segment if it is about the spans of its words. -/
theorem span_proper {T : Tally} (h : ∀ p ∈ segment.words, T.Proper p.span) :
    T.Proper segment.span := by
  rw [words, List.forall_mem_append, List.forall_mem_cons] at h
  exact widened_proper (widened_proper h.2.1 h.1) h.2.2

end Segment

/-- The spans of segments whose words stand in order together count no more than the words between
the two positions. -/
theorem Run.sum_size_span_le {T : Tally} {segments : List Segment} {lo hi : Nat}
    (h : Run.Between T lo (segments.flatMap Segment.words) hi) :
    (segments.map (T.size ·.span)).sum ≤ T.count lo hi := by
  induction segments generalizing lo with
  | nil => exact Nat.zero_le _
  | cons segment rest ih =>
    obtain ⟨mid, hwords, hrest⟩ := Run.Between.append_iff.1 h
    have hspan : T.size segment.span ≤ T.count lo mid :=
      T.size_le_of_within (Segment.span_within_iff.2 fun _ hp => hwords.within hp)
    have hadd := T.count_add_le hwords.le hrest.le
    have hlater := ih hrest
    rw [List.map_cons, List.sum_cons]
    omega

end SpokenOrder
