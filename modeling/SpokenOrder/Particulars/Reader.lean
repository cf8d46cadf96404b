import SpokenOrder.Grammar.Basic
import SpokenOrder.Menu.Basic
import SpokenOrder.Particulars.Basic

/-!
# Reading particulars

The words around an item are read from left to right; at each position the first of these fits:

    CONJUNCTION                         passed over, but put to use
    OPTION_RECIPE                       a recipe
    NUMBER? UNIT? ATTRIBUTE OPTION      an option, if the attribute configures it
    NUMBER? UNIT? OPTION                an option
    ATTRIBUTE                           of the item itself, one on each dimension

Anything else is passed over. To the left of the item, a number at the front says how many of the
item, unless a unit or an option comes right after it: in "2 pumps vanilla syrup" it measures the
option.
-/

namespace SpokenOrder.Particulars

/-! ## Slots -/

/-- The number in a slot. -/
def numberIn? (captures : Captures) (slot : Nat) : Option Nat :=
  (captures.get? slot).bind fun p =>
    match p.token with
    | .number value => some value
    | _ => none

/-- The attribute in a slot. -/
def attributeIn? (captures : Captures) (slot : Nat) : Option Aid :=
  (captures.get? slot).bind fun p =>
    match p.token with
    | .attribute id _ => some id
    | _ => none

/-- The option in a slot. -/
def optionIn? (captures : Captures) (slot : Nat) : Option Pid :=
  (captures.get? slot).bind fun p =>
    match p.token with
    | .option pid _ => some pid
    | _ => none

/-- The recipe in a slot. -/
def recipeIn? (captures : Captures) (slot : Nat) : Option Rid :=
  (captures.get? slot).bind fun p =>
    match p.token with
    | .optionRecipe rid _ => some rid
    | _ => none

/-! ## Rules -/

/-- Adds a part, with the tokens that name it. -/
def withPart (s : Particulars) (part : Part) : Particulars :=
  { s with parts := s.parts ++ [part], used := s.used + part.tokens }

/-- Words that only join others. -/
def conjunctionRule : Rule Particulars :=
  .plain "conjunction" [.token .conjunction] fun s _ used =>
    some { s with used := s.used + used }

/-- The name of a recipe. -/
def recipeRule : Rule Particulars :=
  .plain "option recipe" [.token .optionRecipe] fun s captures used =>
    (recipeIn? captures 0).map fun rid => s.withPart (.recipe rid used)

/-- The name of an option, with an attribute that configures it. -/
def attributeOptionRule (menu : Menu) : Rule Particulars where
  name := "attribute option"
  pattern :=
    [.optional [.token .number], .optional [.token .unit], .token .attribute, .token .option]
  guard _ captures :=
    match attributeIn? captures 2, optionIn? captures 3 with
    | some aid, some pid => (menu.matrixFor? pid).any (·.configures aid)
    | _, _ => false
  production s captures used :=
    match attributeIn? captures 2, optionIn? captures 3 with
    | some aid, some pid =>
      some (s.withPart (.option pid [aid] ((numberIn? captures 0).getD 1) used))
    | _, _ => none

/-- The name of an option. -/
def optionRule : Rule Particulars :=
  .plain "option" [.optional [.token .number], .optional [.token .unit], .token .option]
    fun s captures used =>
      (optionIn? captures 2).map fun pid =>
        s.withPart (.option pid [] ((numberIn? captures 0).getD 1) used)

/-- The dimension on which an attribute would configure the item, if it configures the item and the
dimension is still open. -/
def openDimension? (menu : Menu) (matrix : Option Matrix) (s : Particulars) (aid : Aid) :
    Option Did :=
  if matrix.any (·.configures aid) then
    (menu.registry.dimensionOf? aid).filter fun did => !s.dimensions.contains did
  else none

/-- An attribute of the item. -/
def attributeRule (menu : Menu) (matrix : Option Matrix) : Rule Particulars :=
  .plain "attribute" [.token .attribute] fun s captures used =>
    match attributeIn? captures 0 with
    | none => none
    | some aid =>
      (openDimension? menu matrix s aid).map fun did =>
        { s with
          attributes := s.attributes ++ [aid]
          dimensions := s.dimensions ++ [did]
          used := s.used + used }

/-- The grammar of particulars of an item that the matrix configures, or of no item. -/
def grammar (menu : Menu) (matrix : Option Matrix) : Grammar Particulars :=
  .ofRules
    [conjunctionRule, recipeRule, attributeOptionRule menu, optionRule,
      attributeRule menu matrix]

/-! ## Reading -/

/-- Reads on, wherever the words stand. -/
def read (menu : Menu) (matrix : Option Matrix) (s : Particulars) (run : Run) : Particulars :=
  ((grammar menu matrix).process s run).1

/-- Passes over a conjunction at the front. -/
def skipConjunction (s : Particulars) : Run → Particulars × Run
  | [] => (s, [])
  | p :: rest =>
    if p.token.kind == .conjunction then ({ s with used := s.used + 1 }, rest)
    else (s, p :: rest)

/-- Does a number at the front measure an option? -/
def measuresOption : Run → Bool
  | p :: q :: _ => p.token.kind == .number && (q.token.kind == .unit || q.token.kind == .option)
  | _ => false

/-- The number that a token says. -/
def quantityOf? : Token → Option Nat
  | .number value => some value
  | .quantity value => some value
  | _ => none

/-- Takes a number at the front as the quantity of the item, unless it measures an option. -/
def readQuantity (s : Particulars) : Run → Particulars × Run
  | [] => (s, [])
  | p :: rest =>
    match quantityOf? p.token with
    | some value =>
      if measuresOption (p :: rest) then (s, p :: rest)
      else ({ s with quantity := some value, used := s.used + 1 }, rest)
    | none => (s, p :: rest)

/-- Reads words to the left of the item, or words that stand alone. -/
def readLeft (menu : Menu) (matrix : Option Matrix) (s : Particulars) (run : Run) :
    Particulars :=
  let (s, run) := s.skipConjunction run
  let (s, run) := s.readQuantity run
  s.read menu matrix run

/-- What the words on both sides of an item say. -/
def readAround (menu : Menu) (matrix : Option Matrix) (left right : Run) : Particulars :=
  (empty.readLeft menu matrix left).read menu matrix right

end SpokenOrder.Particulars
