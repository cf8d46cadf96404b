import SpokenOrder.Grammar.Basic
import SpokenOrder.Reference
import SpokenOrder.Segment

/-!
# Understanding a tokenization

The rules of the intent grammar edit the cart one after another: each sees the edits of those
before it, so that "add a coffee and make it large" works. The `Context` also adds up how much of
the utterance was understood.
-/

namespace SpokenOrder.Intent

/-- The cart as edited so far, with the score of the edits and the number of tokens behind them. -/
structure Context where
  cart : Cart
  score : Nat
  tokenCount : Nat
deriving Repr

namespace Context

/-- Nothing understood yet. -/
def ofCart (cart : Cart) : Context := ⟨cart, 0, 0⟩

/-- How many of the captured tokens are marks of intent, rather than groups. -/
def markers (captures : Captures) : Nat := captures.filled.countP (·.token.run?.isNone)

/-- After an edit. The marks of intent that led to it count as understood. -/
def edit (c : Context) (captures : Captures) (cart : Cart) (score : Nat) : Context :=
  ⟨cart, c.score + markers captures + score, c.tokenCount + captures.filled.tokenCount⟩

end Context

/-- The run of the group in a slot. -/
def groupIn? (captures : Captures) (slot : Nat) : Option Run :=
  (captures.get? slot).bind (·.token.run?)

/-- The span of the token in a slot. -/
def spanIn? (captures : Captures) (slot : Nat) : Option Span := (captures.get? slot).map (·.span)

/-- The first of the highest-scoring values. -/
def best? {β : Type} : List (β × Nat) → Option (β × Nat)
  | [] => none
  | a :: rest =>
    match best? rest with
    | none => some a
    | some b => if a.2 < b.2 then some b else some a

/-- The best that `read` makes of a segmentation of the run. -/
def bestSegmentation? {β : Type} (run : Run) (read : List Segment → Option (β × Nat)) :
    Option (β × Nat) :=
  best? (run.segmentations.filterMap read)

variable {α : Type} [Score α]

/-- The items that the token in a slot refers to, the best first. -/
def targetsIn (scene : Scene α) (c : Context) (captures : Captures) (slot : Nat) :
    List (Scored Item) :=
  match spanIn? captures slot with
  | none => []
  | some span => scene.targets c.cart span

/-- The context in which an item has been changed in its place, with what was understood beside the
change itself. -/
def replaced (c : Context) (captures : Captures) (new : Scored Item) (score : Nat) : Context :=
  c.edit captures (c.cart.replace new.value) (score + new.score)

end SpokenOrder.Intent
