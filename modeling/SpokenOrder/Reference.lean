import SpokenOrder.Cart
import SpokenOrder.Lattice.Filter
import SpokenOrder.Lattice.Path
import SpokenOrder.Phrase.Target

/-!
# What a span refers to

People refer to what they ordered in few words, and these may score poorly among all readings of an
utterance. So a reference is looked up in the lattice itself, not in the tokenization at hand: the
lattice is restricted to the span, without readings that name nothing in the cart, and all
tokenizations of what is left are tried. Each item that one of them refers to is listed once, with
the best score, and the list is ranked.
-/

namespace SpokenOrder

/-- What an utterance is understood against: the menu, and its own lattice. -/
structure Scene (α : Type) where
  menu : Menu
  lattice : Lattice α

/-! ## Vocabulary -/

/-- The names that can refer to something. -/
structure Vocabulary where
  entities : List Pid
  options : List Pid
  attributes : List Aid
deriving DecidableEq, Repr

namespace Vocabulary

/-- Is the token in the vocabulary? Only products, options and attributes may be missing. -/
def wants (v : Vocabulary) : Token → Bool
  | .entity pid _ => v.entities.contains pid
  | .option pid _ => v.options.contains pid
  | .attribute id _ => v.attributes.contains id
  | _ => true

end Vocabulary

namespace Menu

/-- The options that an item has or comes with. -/
def optionsOn (menu : Menu) (item : Item) : List Pid :=
  item.children.map (·.key.pid) ++ ((menu.catalog.generic? item.key.pid).map (·.defaults)).getD []

/-- The attributes of the children of an item. -/
def attributesOn (menu : Menu) (item : Item) : List Aid :=
  item.children.flatMap fun c => menu.attributesOf c.key

/-- The names that can refer to something in a cart. -/
def cartVocabulary (menu : Menu) (cart : Cart) : Vocabulary where
  entities := cart.items.map (·.key.pid)
  options := cart.items.flatMap menu.optionsOn
  attributes := cart.items.flatMap fun item => menu.attributesOf item.key ++ menu.attributesOn item

/-- The names that can refer to an option of an item. -/
def optionVocabulary (menu : Menu) (parent : Item) : Vocabulary where
  entities := []
  options := menu.optionsOn parent
  attributes := menu.attributesOn parent

end Menu

/-! ## Ranking -/

namespace Ranking

/-- Are two finds the same item? -/
def same (a b : Scored Item) : Bool :=
  a.value.uid == b.value.uid && a.value.key.pid == b.value.key.pid

/-- Does the first find come before the second in the order of numbers? -/
def precedes (a b : Scored Item) : Bool :=
  a.value.uid < b.value.uid
    || (a.value.uid == b.value.uid && a.value.key.pid < b.value.key.pid)

/-- Adds a find to finds in the order of numbers. Of two finds of one item the better score stays,
and of two equal scores the first. -/
def insert (new : Scored Item) : List (Scored Item) → List (Scored Item)
  | [] => [new]
  | old :: rest =>
    if same old new then (if new.score ≤ old.score then old else new) :: rest
    else if precedes new old then new :: old :: rest
    else old :: insert new rest

/-- May the first find stand before the second? Better scores come first, then later positions. -/
def ranksBefore (position : Item → Nat) (a b : Scored Item) : Bool :=
  b.score < a.score || (a.score == b.score && position b.value ≤ position a.value)

/-- The finds, each item once, the best first. What neither score nor position decides keeps the
order of numbers. -/
def ofFinds (position : Item → Nat) (finds : List (Scored Item)) : List (Scored Item) :=
  (finds.foldl (fun ranked new => insert new ranked) []).mergeSort (ranksBefore position)

end Ranking

/-! ## References -/

namespace Scene

variable {α : Type} [Score α]

/-- The tokenizations of a span, without names that are not in the vocabulary. -/
def tokenizationsOf (scene : Scene α) (v : Vocabulary) (span : Span) : List Run :=
  (scene.lattice.restrict span v.wants).tilings

/-- The items of a cart that one tokenization refers to. It must name one product. -/
def findsIn (scene : Scene α) (cart : Cart) (span : Span) (run : Run) : List (Scored Item) :=
  match run.segment?.bind scene.menu.target? with
  | none => []
  | some t =>
    ((cart.findByPattern t.value.pattern).filter t.value.carriedBy).map
      (⟨·, t.score, span.length⟩)

/-- The items of a cart that the words of a span refer to, the best first. -/
def targets (scene : Scene α) (cart : Cart) (span : Span) : List (Scored Item) :=
  let runs := scene.tokenizationsOf (scene.menu.cartVocabulary cart) span
  Ranking.ofFinds (fun item => (cart.recency? item.uid).getD 0)
    (runs.flatMap (scene.findsIn cart span))

/-- The default option that a target refers to, if the parent comes with it and has none of its
variants as a child. It is not placed in the cart. -/
def untouchedDefault? (scene : Scene α) (parent : Item) (t : OptionTarget) : Option Item :=
  if scene.menu.catalog.isDefaultOption parent.key.pid t.pid
      && !parent.children.any (·.key.pid == t.pid) then
    (scene.menu.defaultKey? t.pid).map (Item.ofKey · 1)
  else none

/-- The options of an item that one tokenization refers to: children, or else an untouched
default. -/
def optionFindsIn (scene : Scene α) (parent : Item) (span : Span) (run : Run) :
    List (Scored Item) :=
  match scene.menu.optionTarget? run with
  | none => []
  | some t =>
    let found := parent.children.filter t.value.fits
    (if found.isEmpty then (scene.untouchedDefault? parent t.value).toList else found).map
      (⟨·, t.score, span.length⟩)

/-- The options of an item that the words of a span refer to, the best first. -/
def optionTargets (scene : Scene α) (parent : Item) (span : Span) : List (Scored Item) :=
  let runs := scene.tokenizationsOf (scene.menu.optionVocabulary parent) span
  Ranking.ofFinds
    (fun child => (parent.children.findIdx? (·.uid == child.uid)).getD 0)
    (runs.flatMap (scene.optionFindsIn parent span))

end Scene

end SpokenOrder
