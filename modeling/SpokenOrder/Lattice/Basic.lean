import SpokenOrder.Lattice.Score
import SpokenOrder.Token

/-!
# Lattices of readings

A `Lattice` lists, for each word of an utterance, the readings that begin there. A reading that
covers several words is an edge over them:

    0        1        2        3
    half --- and ---- half --> end
    OPTION(half and half) ---> end

Nothing forces an edge to end inside the lattice, or to cover any word; the operations on lattices
pass over edges that do not. Ends are kept up to the bound of sizes, so an edge of a length close to
the bound can be taken for one that ends inside the lattice (`Edge.keptStop`).
-/

namespace SpokenOrder

/-- One reading of some words, with its score. -/
structure Edge (α : Type) where
  token : Token
  score : α
  /-- The number of words that it covers. -/
  length : Nat

/-- The readings that begin at each word. -/
structure Lattice (α : Type) where
  positions : List (List (Edge α))

variable {α : Type}

namespace Edge

/-- The edge that leaves one word unexplained. -/
def filler [Score α] (text : String) : Edge α := ⟨.unknown text, Score.zero, 1⟩

/-- Does the edge leave its words unexplained? -/
def isFiller (e : Edge α) : Bool := e.token.isUnknown

/-- Where the edge ends if it begins at the position, as it is kept, up to the bound of sizes. -/
def keptStop (start : Nat) (e : Edge α) : Nat := (start + e.length) % sizeBound

/-- Does the edge cover a word or more, and end, as ends are kept, in a lattice of the given size? -/
def leadsOn (size start : Nat) (e : Edge α) : Bool := 0 < e.length && e.keptStop start ≤ size

/-- What the edge adds to the weight of a path: its score for each of its words. -/
def weight [Score α] (e : Edge α) : α := Score.times e.score e.length

end Edge

namespace Lattice

/-- The number of words. -/
def size (l : Lattice α) : Nat := l.positions.length

/-- The number of edges. -/
def edgeCount (l : Lattice α) : Nat := l.positions.foldr (·.length + ·) 0

/-- A lattice over so many words, with no edge. -/
def ofSize (words : Nat) : Lattice α := ⟨List.replicate words []⟩

/-- Adds an edge behind the others at a position. Beyond the last word nothing is added. -/
def addEdge (l : Lattice α) (start : Nat) (e : Edge α) : Lattice α :=
  ⟨l.positions.modify start (· ++ [e])⟩

/-- The lattice with one path, which reads each token as one word. -/
def ofTokens [Score α] (tokens : List Token) : Lattice α :=
  ⟨tokens.map fun t => [⟨t, Score.one, 1⟩]⟩

end Lattice

end SpokenOrder
