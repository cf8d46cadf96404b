import SpokenOrder.Lattice.Path

/-!
# Walking a lattice

Tokenizations can also be found by a `Walk` from the first word on. It keeps the tokens of the path
in progress and a stack of the positions that the path has come to, each with the place of the next
edge to try there. Each turn goes on by one edge, or goes back by one, until the stack is empty
(`Walk.finish?`).

A walk goes by the ends of edges as they are kept. An edge so long that its end is lost may take it
back to an earlier word, and round in circles. Where no end is lost, as in the lattices of texts and
of tokens, a walk finds the same as `Lattice.tilings`.
-/

namespace SpokenOrder

variable {α : Type}

/-- A position that a walk has come to, and the place of the next edge to try there. -/
structure Frame where
  position : Nat
  choice : Nat

/-- How far a walk has come. -/
structure Walk where
  /-- The positions of the path in progress, the latest first. -/
  stack : List Frame
  /-- The tokens of the path in progress. -/
  path : Run
  /-- The tokenizations found so far. -/
  found : List Run

namespace Lattice

/-- The first of the edges at a position, from the given place on, that leads on in a lattice of the
given size, with its place. -/
def nextChoice? (size start : Nat) (edges : List (Edge α)) (choice : Nat) :
    Option (Edge α × Nat) :=
  (edges.zipIdx.drop choice).find? fun p => p.1.leadsOn size start

/-- One turn of a walk. At the end of the lattice the path is a tokenization. There is no turn when
the stack is empty, nor at a position that the lattice does not have. -/
def turn? (l : Lattice α) : Walk → Option Walk
  | ⟨[], _, _⟩ => none
  | ⟨⟨position, choice⟩ :: below, path, found⟩ =>
    if position = l.size then some ⟨below, path.dropLast, found ++ [path]⟩
    else l.positions[position]?.map fun edges =>
      match nextChoice? l.size position edges choice with
      | none => ⟨below, path.dropLast, found⟩
      | some (e, place) =>
        ⟨⟨e.keptStop position, 0⟩ :: ⟨position, place + 1⟩ :: below,
          path ++ [⟨e.token, ⟨position, e.length⟩⟩], found⟩

/-- Where a walk begins. Over no words there is nothing to walk. -/
def walkStart (l : Lattice α) : Walk := ⟨if l.positions.isEmpty then [] else [⟨0, 0⟩], [], []⟩

end Lattice

/-- What the walk has found when there is no turn left, if it ever comes to that. -/
def Walk.finish? (l : Lattice α) (w : Walk) : Option (List Run) :=
  match l.turn? w with
  | none => some w.found
  | some next => next |>.finish? l
partial_fixpoint

namespace Lattice

/-- All tokenizations, as a walk finds them. A walk that never ends finds nothing. -/
def tokenizations (l : Lattice α) : List Run := (l.walkStart.finish? l).getD []

/-! ## The heaviest tokenizations -/

variable [Score α]

/-- By the greatest weights of the paths from each position, is a path over the edge as heavy as any
from its own? -/
def keepsHeaviest (weights : List (Option α)) (size start : Nat) (e : Edge α) : Bool :=
  e.leadsOn size start &&
    match weights[e.keptStop start]?.join, weights[start]?.join with
    | some weight, some best => Score.close (Score.add e.weight weight) best
    | _, _ => false

/-- Keeps, at each position, the edges over which a heaviest path from there goes, as ends are
kept. -/
def prune (l : Lattice α) : Lattice α :=
  ⟨l.positions.mapIdx fun start edges =>
    edges.filter (keepsHeaviest (bestWeights l.positions) l.size start)⟩

/-- The heaviest tokenizations, as a walk finds them. -/
def heaviestTokenizations (l : Lattice α) : List Run := l.prune.tokenizations

end Lattice

end SpokenOrder
