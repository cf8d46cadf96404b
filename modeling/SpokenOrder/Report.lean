import SpokenOrder.Interpretation
import SpokenOrder.Text.Duration

/-!
# Reports

What is shown to people of one interpretation: the utterance, on request the candidates, the cart,
and on request how long it took.
-/

namespace SpokenOrder

/-! ## Colours -/

/-- The ways in which text is set off on a terminal. -/
inductive Style where
  | bold
  | dim
  | green
  | yellow
  | blue
  | cyan
  | gray
deriving DecidableEq, Repr

/-- The control sequence that begins a style. -/
def Style.code : Style → String
  | .bold => "\x1b[1m"
  | .dim => "\x1b[2m"
  | .green => "\x1b[32m"
  | .yellow => "\x1b[33m"
  | .blue => "\x1b[34m"
  | .cyan => "\x1b[36m"
  | .gray => "\x1b[90m"

/-- Whether styles are shown. -/
structure Palette where
  enabled : Bool
deriving DecidableEq, Repr

/-- Text in a style. -/
def Palette.paint (p : Palette) (style : Style) (text : String) : String :=
  if p.enabled then style.code ++ text ++ "\x1b[0m" else text

/-! ## Parts of a report -/

/-- How long an interpretation took, in nanoseconds. -/
structure Timing where
  total : Nat
  /-- Filtering the lattice and finding the heaviest tokenizations. -/
  tokenize : Nat
  /-- Running the intent grammar over all of them. -/
  interpret : Nat
deriving DecidableEq, Repr

namespace Report

/-- The line above a part. -/
def heading (p : Palette) (title : String) : List String :=
  ["", p.paint .gray ("━━━ " ++ title ++ " ━━━")]

/-- A name with a number. -/
def measure (p : Palette) (name : String) (value : Nat) : String :=
  p.paint .dim name ++ " " ++ p.paint .yellow (toString value)

/-- The lines on one candidate. -/
def candidate (p : Palette) (winner : Option Nat) (c : Candidate) (index : Nat) : List String :=
  let mark := if winner = some index then p.paint .green "✓" else p.paint .dim "·"
  let position := p.paint .gray ("[" ++ toString index ++ "]")
  let first := "  " ++ mark ++ " " ++ position ++ " " ++ p.paint .bold c.grouped.describe
  let second :=
    "      " ++ "  ".intercalate [measure p "score:" c.context.score, measure p "missed:" c.missed,
      measure p "tokens:" c.context.tokenCount]
  let rules :=
    if c.rules.isEmpty then []
    else ["      " ++ p.paint .dim "rules:" ++ " " ++ p.paint .blue (", ".intercalate c.rules)]
  first :: second :: rules

/-- The lines on all candidates. -/
def candidates (p : Palette) (i : Interpretation) : List String :=
  if i.candidates.isEmpty then [p.paint .dim "  No tokenizations"]
  else i.candidates.zipIdx.flatMap fun (c, index) => candidate p i.winner c index

/-- The line on one item. -/
def item (menu : Menu) (p : Palette) (i : Item) : String :=
  "  " ++ p.paint .gray ("#" ++ toString i.uid) ++ " " ++ p.paint .green (menu.describe i)

/-- The lines on the cart. -/
def cart (menu : Menu) (p : Palette) (i : Interpretation) : List String :=
  (if i.understood then [] else ["  " ++ p.paint .yellow "not understood, cart unchanged"])
    ++ (if i.cart.items.isEmpty then ["  " ++ p.paint .dim "(empty)"] else [])
    ++ i.cart.items.map (item menu p)

/-- The line on the time that was needed. -/
def timing (p : Palette) (i : Interpretation) (t : Timing) : String :=
  "  " ++ "  │  ".intercalate
    ["Total: " ++ p.paint .green (Text.duration t.total),
      "Tokenize: " ++ p.paint .cyan (Text.duration t.tokenize),
      "Interpret: " ++ p.paint .dim (Text.duration t.interpret),
      "Edges: " ++ p.paint .dim (toString i.edges)]

/-- The report on an utterance. -/
def lines (menu : Menu) (p : Palette) (verbose : Bool) (utterance : String) (i : Interpretation)
    (t : Timing) : List String :=
  ["", p.paint .bold (p.paint .cyan ("> \"" ++ utterance ++ "\""))]
    ++ (if verbose then heading p "Candidates" ++ candidates p i else [])
    ++ heading p "Cart" ++ cart menu p i
    ++ (if verbose then heading p "Timing" ++ [timing p i t] else [])

end Report

end SpokenOrder
