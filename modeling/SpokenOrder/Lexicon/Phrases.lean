import SpokenOrder.Token

/-!
# Words that every menu shares

The phrases that say what to do, and the words for numbers. Some phrases have two readings.
-/

namespace SpokenOrder.Lexicon

/-- Words that are passed over wherever they stand. -/
def stopwords : List String := ["the", "that", "it", "this", "my", "some", "of", "um", "uh"]

/-- Phrases that say what is to be done, or hold an utterance together. -/
def intentPhrases : List (String × Token) :=
  [("add", .addToOrder),
    ("i'd like", .addToOrder),
    ("i would like", .addToOrder),
    ("i want", .addToOrder),
    ("i'll have", .addToOrder),
    ("get me", .addToOrder),
    ("give me", .addToOrder),
    ("please", .prologue),
    ("hi", .prologue),
    ("hello", .prologue),
    ("ok", .prologue),
    ("okay", .prologue),
    ("can i", .prologue),
    ("could i", .prologue),
    ("could you", .prologue),
    ("remove", .removeItem),
    ("cancel", .removeItem),
    ("drop", .removeItem),
    ("take off", .removeItem),
    ("no", .removeItem),
    ("make", .modifyItem),
    ("change", .modifyItem),
    ("switch", .modifyItem),
    ("replace", .modifyItem),
    ("swap", .modifyItem),
    ("to", .preposition),
    ("with", .preposition),
    ("on", .preposition),
    ("into", .preposition),
    ("from", .preposition),
    ("in", .preposition),
    ("and", .conjunction),
    ("plus", .conjunction),
    ("also", .conjunction),
    ("with", .conjunction)]

/-- Phrases for a rough number. -/
def quantityPhrases : List (String × Token) :=
  [("a", .quantity 1),
    ("an", .quantity 1),
    ("a couple", .quantity 2),
    ("a few", .quantity 3)]

/-- Words for numbers. -/
def numberWords : List (String × Nat) :=
  [("one", 1), ("two", 2), ("three", 3), ("four", 4), ("five", 5), ("six", 6), ("seven", 7),
    ("eight", 8), ("nine", 9), ("ten", 10)]

end SpokenOrder.Lexicon
