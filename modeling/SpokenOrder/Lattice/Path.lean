import SpokenOrder.Lattice.Basic

/-!
# Paths

A path takes edges from the first word to the end, each beginning where the one before it ends.
Placed on the words it is a tokenization of the utterance that tiles them. `Lattice.tilings` lists
all of them, `Lattice.heaviestTilings` those of the greatest weight. A long edge with a good score
weighs more than the short ones under it, and fillers weigh nothing, so the heaviest paths explain as
much as they can.

Both are computed from the end of the lattice: `foldSuffixes` goes through the positions from right
to left, and what it finds for a position may depend on what it found for the later ones. Edges lead
to later positions only, with nothing lost of where they end, however long they are.
-/

namespace SpokenOrder.Lattice

variable {α β : Type}

/-! ## From the end -/

/-- The values for each position and for the end, the first position first: `last` for the end, and
for a position what `step` makes of its edges and the later values. -/
def foldSuffixes (last : β) (step : List (Edge α) → List β → β) : List (List (Edge α)) → List β
  | [] => [last]
  | edges :: rest =>
    let later := foldSuffixes last step rest
    step edges later :: later

/-- The value for the position where an edge leads, if the edge leads on and not past the end. What
counts is the length of the edge, with nothing lost of where it ends, so it leads to a later position
only. -/
def arrival? (later : List β) (e : Edge α) : Option β :=
  match e.length with
  | 0 => none
  | n + 1 => later[n]?

/-! ## All paths -/

/-- The paths that begin with one of the edges, given the paths from the later positions. -/
def extend (edges : List (Edge α)) (later : List (List (List (Edge α)))) :
    List (List (Edge α)) :=
  edges.flatMap fun e => ((arrival? later e).getD []).map (e :: ·)

/-- The paths from the first of the positions to the end. -/
def pathsFrom (positions : List (List (Edge α))) : List (List (Edge α)) :=
  (foldSuffixes [[]] extend positions).headD []

/-- All paths, in the order of their edges. A lattice over no words has none. -/
def paths (l : Lattice α) : List (List (Edge α)) :=
  if l.positions.isEmpty then [] else pathsFrom l.positions

/-- The tokens of a path that begins at the given position. -/
def place (start : Nat) : List (Edge α) → Run
  | [] => []
  | e :: rest => ⟨e.token, ⟨start, e.length⟩⟩ :: place (start + e.length) rest

/-- The tokenizations of all paths. -/
def tilings (l : Lattice α) : List Run := l.paths.map (place 0)

/-! ## The heaviest paths -/

variable [Score α]

/-- The largest of some scores. -/
def largest? : List α → Option α
  | [] => none
  | s :: rest => some (rest.foldl Score.larger s)

/-- The greatest weight of a path that takes the edge, given the greatest weights from the later
positions. -/
def weightVia? (later : List (Option α)) (e : Edge α) : Option α :=
  (arrival? later e).join.map (Score.add e.weight)

/-- The greatest weight of a path that takes one of the edges. -/
def bestWeight? (edges : List (Edge α)) (later : List (Option α)) : Option α :=
  largest? (edges.filterMap (weightVia? later))

/-- The greatest weight of a path from each position to the end, or `none` where there is no path. -/
def bestWeights (positions : List (List (Edge α))) : List (Option α) :=
  foldSuffixes (some Score.zero) bestWeight? positions

/-- Is a path over the edge as heavy as any from the same position? -/
def onHeaviest (best : Option α) (later : List (Option α)) (e : Edge α) : Bool :=
  match weightVia? later e, best with
  | some weight, some best => Score.close weight best
  | _, _ => false

/-- `heaviest` on the rest of a lattice. -/
def heaviestFrom : List (List (Edge α)) → List (List (Edge α))
  | [] => []
  | edges :: rest =>
    let later := bestWeights rest
    edges.filter (onHeaviest (bestWeight? edges later) later) :: heaviestFrom rest

/-- Keeps, at each position, the edges over which a heaviest path from there goes. -/
def heaviest (l : Lattice α) : Lattice α := ⟨heaviestFrom l.positions⟩

/-- The tokenizations of the heaviest paths. -/
def heaviestTilings (l : Lattice α) : List Run := l.heaviest.tilings

end SpokenOrder.Lattice
