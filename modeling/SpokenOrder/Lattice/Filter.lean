import SpokenOrder.Lattice.Basic

/-!
# Dropping readings

`Lattice.filter` drops weak edges and keeps one of several edges that are the same reading;
`Lattice.restrict` cuts out a span and drops what a test turns away. Neither disconnects a lattice
that has a filler at each word: `filter` keeps fillers whatever they score, and `restrict` puts one
where none is left.
-/

namespace SpokenOrder

variable {α : Type}

/-! ## Weak edges and copies -/

namespace Edge

/-- Are the edges the same reading of the same number of words? -/
def sameReading (e f : Edge α) : Bool :=
  e.length == f.length && e.token.identity == f.token.identity

variable [Score α]

/-- Does the edge lead on from `start` in a lattice of the given size, and is it a filler or not below
the threshold? -/
def passes (threshold : α) (size start : Nat) (e : Edge α) : Bool :=
  e.leadsOn size start && (e.isFiller || !Score.below e.score threshold)

/-- Adds an edge to edges that are all different readings. Of two copies the one with the better
score stays, in the place of the first; on a tie the first stays. -/
def insertBest (e : Edge α) : List (Edge α) → List (Edge α)
  | [] => [e]
  | f :: rest =>
    if f.sameReading e then (if Score.atLeast f.score e.score then f else e) :: rest
    else f :: insertBest e rest

/-- One edge for each reading, the best. -/
def distinct (edges : List (Edge α)) : List (Edge α) :=
  edges.foldl (fun kept e => insertBest e kept) []

end Edge

namespace Lattice

variable [Score α]

/-- `filter` on the rest of a lattice of the given size, from the position `start` on. -/
def filterFrom (threshold : α) (size : Nat) : Nat → List (List (Edge α)) → List (List (Edge α))
  | _, [] => []
  | start, edges :: rest =>
    Edge.distinct (edges.filter (Edge.passes threshold size start))
      :: filterFrom threshold size (start + 1) rest

/-- Drops the edges that cover no word, lead past the end or score below the threshold, and all but
the best of the edges that are the same reading. Fillers stay whatever they score. -/
def filter (l : Lattice α) (threshold : α) : Lattice α :=
  ⟨filterFrom threshold l.size 0 l.positions⟩

/-! ## Spans -/

/-- Adds the filler for an unnamed word to edges that have no filler. -/
def refill (edges : List (Edge α)) : List (Edge α) :=
  if edges.any Edge.isFiller then edges else edges ++ [Edge.filler "_"]

/-- `restrict` on what is left of a span that ends at `stop`, from the position `start` on. -/
def restrictFrom (wanted : Token → Bool) (stop : Nat) :
    Nat → List (List (Edge α)) → List (List (Edge α))
  | _, [] => []
  | start, edges :: rest =>
    refill (edges.filter fun e => e.keptStop start ≤ stop && wanted e.token)
      :: restrictFrom wanted stop (start + 1) rest

/-- The end of a span, clipped to the lattice. -/
def clippedStop (l : Lattice α) (span : Span) : Nat := min span.keptStop l.size

/-- The part of the lattice over a span: the edges that end inside it and whose token is wanted.
Every word without a filler gets one. -/
def restrict (l : Lattice α) (span : Span) (wanted : Token → Bool) : Lattice α :=
  ⟨restrictFrom wanted (l.clippedStop span) span.start
    ((l.positions.take (l.clippedStop span)).drop span.start)⟩

end Lattice

end SpokenOrder
