import SpokenOrder.Lattice.Basic
import SpokenOrder.Lexicon.Phrases
import SpokenOrder.Menu.Basic
import SpokenOrder.Text.Numeral
import SpokenOrder.Text.Words

/-!
# The lexicon

A `Lexicon` holds the phrases that can be understood, each with what it means. `Lexicon.lattice`
reads a text: at each word it enters every phrase that is said from there on, with the score 1, and
a filler, with the score 0.
-/

namespace SpokenOrder

/-- A phrase that means a token. -/
structure Alias where
  words : List String
  token : Token

/-- The phrases that can be understood, and the tokens for what the menu names. -/
structure Lexicon where
  aliases : List Alias
  entities : List (Pid × Token)
  attributes : List (Aid × Token)

namespace Lexicon

/-- The words of a text, in lower case and without stopwords. -/
def words (text : String) : List String :=
  (Text.wordsOf text.toList).filter fun w => !stopwords.contains w

/-- The alias that a text stands for; none, if the text has no words. -/
def aliasOf (text : String) (token : Token) : List Alias :=
  match words text with
  | [] => []
  | w :: ws => [⟨w :: ws, token⟩]

/-- A name as an alias, in the plural first. -/
def nameAliases (name : String) (token : Token) : List Alias :=
  aliasOf (name ++ "s") token ++ aliasOf name token

/-- The token for a generic product or option. -/
def genericToken (g : Generic) : Token :=
  match g.kind with
  | .product => .entity g.pid g.name
  | .option => .option g.pid g.name

/-- The token for an attribute. -/
def attributeTokenOf (a : Attribute) : Token := .attribute a.id a.name

/-- The shared phrases, and every name on the menu. -/
def ofMenu (menu : Menu) : Lexicon where
  aliases :=
    (intentPhrases ++ quantityPhrases).flatMap (fun (text, token) => aliasOf text token)
      ++ menu.catalog.generics.flatMap (fun g => nameAliases g.name (genericToken g))
      ++ menu.attributes.flatMap (fun a => aliasOf a.name (attributeTokenOf a))
      ++ menu.cookbook.recipes.flatMap (fun r => aliasOf r.name (.optionRecipe r.rid r.name))
  entities :=
    (menu.catalog.generics.filter (·.kind == .product)).map fun g => (g.pid, genericToken g)
  attributes := menu.attributes.map fun a => (a.id, attributeTokenOf a)

/-- Adds a phrase behind the others. -/
def addAlias (x : Lexicon) (text : String) (token : Token) : Lexicon :=
  { x with aliases := x.aliases ++ aliasOf text token }

/-- Adds the name of a unit of measure, singular and plural. -/
def addUnit (x : Lexicon) (id : UnitId) (name : String) : Lexicon :=
  { x with aliases := x.aliases ++ nameAliases name (.unit id name) }

/-- The token for a product. -/
def entityToken? (x : Lexicon) (pid : Pid) : Option Token := x.entities.lookup pid

/-- The token for an attribute that configures something. -/
def attributeToken? (x : Lexicon) (aid : Aid) : Option Token := x.attributes.lookup aid

/-! ## Reading -/

/-- Numbers that are said are below this. -/
def numberBound : Nat := Nat.pow 2 32

/-- The numbers that a word stands for. -/
def numbersOf (word : String) : List Nat :=
  (Text.readDigits? numberBound word.toList).toList ++ (numberWords.lookup word).toList

variable {α : Type} [Score α]

/-- The readings that begin at the first of the words. -/
def readings (x : Lexicon) : List String → List (Edge α)
  | [] => []
  | word :: rest =>
    Edge.filler word
      :: (numbersOf word).map (fun n => ⟨.number n, Score.one, 1⟩)
      ++ (x.aliases.filter (·.words.isPrefixOf (word :: rest))).map fun a =>
        ⟨a.token, Score.one, a.words.length⟩

/-- The readings that begin at each of the words. -/
def readingsFrom (x : Lexicon) : List String → List (List (Edge α))
  | [] => []
  | word :: rest => x.readings (word :: rest) :: x.readingsFrom rest

/-- Everything that a text can mean. -/
def lattice (x : Lexicon) (text : String) : Lattice α := ⟨x.readingsFrom (words text)⟩

end Lexicon

end SpokenOrder
