/-!
# Words

A word is a longest stretch of the letters a to z, digits and apostrophes, in lower case. All other
characters only separate words.
-/

namespace SpokenOrder.Text

/-- A character in lower case, as far as words can show it: of the letters outside ASCII, only the
Kelvin sign and the capital I with a dot have one of the letters a to z in their lower case. -/
def lowered (c : Char) : List Char :=
  if c = '\u212a' then ['k']
  else if c = '\u0130' then ['i', '\u0307']
  else [c.toLower]

/-- Can the character be part of a word? -/
def isWordChar (c : Char) : Bool := ('a' ≤ c && c ≤ 'z') || c.isDigit || c == '\x27'

/-- Puts a stretch of word characters before some words. An empty one is no word. -/
def consWord (stretch : List Char) (words : List (List Char)) : List (List Char) :=
  if stretch.isEmpty then words else stretch :: words

/-- The stretch of word characters that a text begins with, and the words after it. -/
def cutWords : List Char → List Char × List (List Char)
  | [] => ([], [])
  | c :: cs =>
    let (stretch, words) := cutWords cs
    if isWordChar c then (c :: stretch, words) else ([], consWord stretch words)

/-- The words of a text in lower case. -/
def wordsOf (cs : List Char) : List String :=
  let (stretch, words) := cutWords (cs.flatMap lowered)
  (consWord stretch words).map String.ofList

end SpokenOrder.Text
