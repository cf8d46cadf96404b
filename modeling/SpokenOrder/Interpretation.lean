import SpokenOrder.Grouping
import SpokenOrder.Intent.Add
import SpokenOrder.Intent.Modify
import SpokenOrder.Intent.Remove
import SpokenOrder.Lattice.Walk
import SpokenOrder.Lexicon.Basic

/-!
# Interpreting an utterance

The heaviest tokenizations of the lattice are candidates. Each is grouped and run through the intent
grammar, starting from the same cart. The candidate that leaves the fewest tokens without effect is
selected; of several, one that took the fewest tokens into account, and of these the first. If even
that one understood nothing, the cart stays as it was.
-/

namespace SpokenOrder

variable {α : Type} [Score α]

/-- The intent grammar: adding is tried before removing, and that before modifying. -/
def Intent.grammar (scene : Scene α) : Grammar Intent.Context :=
  .ofRules (addRules scene ++ removeRules scene ++ modifyRules scene)

/-- One tokenization and what it was understood as. -/
structure Candidate where
  tokens : Run
  grouped : Run
  /-- The rules that edited the cart, in order. -/
  rules : List String
  context : Intent.Context

namespace Candidate

/-- The number of tokens that had no effect. -/
def missed (c : Candidate) : Nat := c.tokens.length - c.context.score

/-- Is the first candidate better than the second? -/
def beats (c d : Candidate) : Bool :=
  c.missed < d.missed || (c.missed == d.missed && c.context.tokenCount < d.context.tokenCount)

/-- The position of the first candidate that no other beats, and the candidate. -/
def best? : List Candidate → Option (Nat × Candidate)
  | [] => none
  | c :: rest =>
    match best? rest with
    | none => some (0, c)
    | some (i, d) => if d.beats c then some (i + 1, d) else some (0, c)

end Candidate

/-- What became of an utterance. -/
structure Interpretation where
  cart : Cart
  score : Nat
  tokenCount : Nat
  candidates : List Candidate
  /-- The position of the candidate that was selected, if it understood anything. -/
  winner : Option Nat
  /-- The number of edges in the filtered lattice. -/
  edges : Nat

namespace Interpretation

/-- Was anything understood? -/
def understood (i : Interpretation) : Bool := i.winner.isSome

/-- Selects among candidates that all started from `cart`. -/
def ofCandidates (cart : Cart) (edges : Nat) (candidates : List Candidate) : Interpretation :=
  match Candidate.best? candidates with
  | none => ⟨cart, 0, 0, candidates, none, edges⟩
  | some (i, c) =>
    if c.context.score = 0 then ⟨cart, 0, 0, candidates, none, edges⟩
    else ⟨c.context.cart, c.context.score, c.context.tokenCount, candidates, some i, edges⟩

end Interpretation

/-- Readings below this score are dropped unless another threshold is asked for. -/
def defaultThreshold : Float := 0.35

namespace Scene

/-- The scene of an utterance: readings below the threshold, and copies, are dropped. -/
def ofLattice (menu : Menu) (lattice : Lattice α) (threshold : α) : Scene α :=
  ⟨menu, lattice.filter threshold⟩

/-- What a tokenization is understood as, starting from a cart. -/
def candidate (scene : Scene α) (cart : Cart) (tokens : Run) : Candidate :=
  let grouped := tokens.group
  let (context, rules) := (Intent.grammar scene).process (.ofCart cart) grouped
  ⟨tokens, grouped, rules, context⟩

/-- The candidates of some tokenizations, weighed against one another. -/
def weigh (scene : Scene α) (cart : Cart) (tokenizations : List Run) : Interpretation :=
  .ofCandidates cart scene.lattice.edgeCount (tokenizations.map (scene.candidate cart))

/-- Interprets the utterance of a scene. The tilings of its lattice are the tokenizations that a walk
finds, unless the end of an edge is lost. -/
def interpret (scene : Scene α) (cart : Cart) : Interpretation :=
  scene.weigh cart scene.lattice.heaviestTilings

end Scene

namespace Menu

/-- Interprets a lattice. -/
def interpretLattice (menu : Menu) (lattice : Lattice α) (threshold : α) (cart : Cart) :
    Interpretation :=
  (Scene.ofLattice menu lattice threshold).interpret cart

/-- Interprets a text. -/
def interpretText (menu : Menu) (lexicon : Lexicon) (text : String) (threshold : α)
    (cart : Cart) : Interpretation :=
  menu.interpretLattice (lexicon.lattice text) threshold cart

/-- Interprets a single tokenization, each token of which stands for one word. -/
def interpretTokens (menu : Menu) (tokens : List Token) (cart : Cart) : Interpretation :=
  menu.interpretLattice (.ofTokens tokens) defaultThreshold cart

end Menu

end SpokenOrder
