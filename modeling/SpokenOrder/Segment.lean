import SpokenOrder.Token

/-!
# Sharing words among entities

In `large coffee with milk and a small cone` some words belong to the coffee and the others to the
cone. A run splits into its entities and the gaps between them:

    gap        entity    gap                     entity    gap
    [large]    coffee    [with milk a small]     cone      []

The first gap can only belong to the first entity, and the last gap to the last one. A gap between
two entities is cut in two: what comes before the cut belongs to the entity on its left, the rest to
the one on its right. One choice of all cuts is a segmentation.
-/

namespace SpokenOrder

/-- An entity with the words that belong to it. -/
structure Segment where
  left : Run
  entity : Placed Token
  right : Run

namespace Segment

/-- The product that the segment is about. -/
def pid? (s : Segment) : Option Pid :=
  match s.entity.token with
  | .entity pid _ => some pid
  | _ => none

/-- The words of the segment. -/
def words (s : Segment) : Run := s.left ++ s.entity :: s.right

/-- The smallest span that holds the words of the segment. -/
def span (s : Segment) : Span :=
  let coverRun (span : Span) (run : Run) := (run.span?.map span.cover).getD span
  coverRun (coverRun s.entity.span s.left) s.right

/-- How many words' tokens the segment stands for; the entity counts as one. -/
def tokenCount (s : Segment) : Nat := s.left.tokenCount + 1 + s.right.tokenCount

end Segment

namespace Run

/-- The gap before the first entity, and each entity with the gap behind it. -/
def splitOnEntities : Run → Run × List (Placed Token × Run)
  | [] => ([], [])
  | p :: rest =>
    let (gap, entities) := splitOnEntities rest
    if p.token.kind == .entity then ([], (p, gap) :: entities) else (p :: gap, entities)

/-- The ways to share the gaps behind the entities, when the first entity has `left` to its left.
The cut of the first gap varies slowest. -/
def share (left : Run) : List (Placed Token × Run) → List (List Segment)
  | [] => []
  | [(entity, gap)] => [[⟨left, entity, gap⟩]]
  | (entity, gap) :: next :: rest =>
    (List.range (gap.length + 1)).flatMap fun cut =>
      (share (gap.drop cut) (next :: rest)).map (⟨left, entity, gap.take cut⟩ :: ·)

/-- All segmentations of a run. There is none without an entity. -/
def segmentations (run : Run) : List (List Segment) :=
  let (gap, entities) := run.splitOnEntities
  share gap entities

/-- The segment that a run is, if it has exactly one entity. -/
def segment? (run : Run) : Option Segment :=
  match run.splitOnEntities with
  | (left, [(entity, right)]) => some ⟨left, entity, right⟩
  | _ => none

end Run

end SpokenOrder
