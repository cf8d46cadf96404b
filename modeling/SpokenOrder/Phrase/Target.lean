import SpokenOrder.Particulars.Reader
import SpokenOrder.Phrase.Scored
import SpokenOrder.Segment

/-!
# Phrases that refer to items

The words that order an item can also refer to it. A `Target` leaves open what the words do not
mention, so it may fit several items. An `OptionTarget` refers to an option by itself.
-/

namespace SpokenOrder

/-- A reference to an item: some variants, and options that the item must have. -/
structure Target where
  pattern : KeyPattern
  options : List Pid
deriving DecidableEq, Repr

namespace Target

/-- Does the item have all options of the target? A removed default does not count. -/
def carriedBy (t : Target) (item : Item) : Bool :=
  t.options.all fun pid => item.children.any fun c => c.key.pid == pid && 0 < c.quantity

/-- Does the target refer to the item? -/
def fits (t : Target) (item : Item) : Bool := t.pattern.covers item.key && t.carriedBy item

end Target

/-- A reference to an option: some of its variants. -/
structure OptionTarget where
  pid : Pid
  pattern : KeyPattern
deriving DecidableEq, Repr

/-- Does the target refer to the option? -/
def OptionTarget.fits (t : OptionTarget) (option : Item) : Bool := t.pattern.covers option.key

namespace Menu

/-- What a segment refers to. Since the variant is left open, the rules about options do not come
into it. -/
def target? (menu : Menu) (segment : Segment) : Option (Scored Target) := do
  let pid ← segment.pid?
  let said :=
    Particulars.readAround menu (menu.matrixFor? pid) segment.left segment.right
  let pattern ← menu.patternFor? pid said.attributes
  return ⟨⟨pattern, said.options.map (·.1)⟩, 1 + said.used, segment.tokenCount⟩

/-- The option that some words refer to. They refer to none if they name more than one part. -/
def optionTarget? (menu : Menu) (words : Run) : Option (Scored OptionTarget) :=
  let said := Particulars.empty.read menu none words
  match said.parts with
  | [.option pid attributes _ _] =>
    (menu.patternFor? pid attributes).map fun pattern =>
      ⟨⟨pid, pattern⟩, said.used, words.tokenCount⟩
  | _ => none

end Menu

end SpokenOrder
