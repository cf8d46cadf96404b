import SpokenOrder.CoffeeShop
import SpokenOrder.CommandLine.Arguments
import SpokenOrder.Report
import SpokenOrder.Text.Blank

/-!
# What the program answers

Each utterance in turn is interpreted against the menu of the coffee shop and the cart that the
utterances before it left behind.
-/

namespace SpokenOrder.CommandLine

/-- The program's name and version. -/
def versionLine : String := "short-order 0.1.0"

/-- How the program is used. -/
def helpLines : List String :=
  ["Interpret food and drink orders against the built-in demo menu",
    "",
    "Usage: short-order [OPTIONS] [UTTERANCES]...",
    "",
    "Arguments:",
    "  [UTTERANCES]...  Utterances to interpret. Reads one per stdin line when omitted",
    "",
    "Options:",
    "      --threshold <THRESHOLD>  Drop lattice edges scoring below this [default: 0.35]",
    "  -v, --verbose                Show every candidate tokenization and timings",
    "      --color                  Force ANSI color output",
    "      --no-color               Disable ANSI color output",
    "  -h, --help                   Print help",
    "  -V, --version                Print version"]

/-- What the program writes, and how it ends. -/
structure Response where
  exitCode : Nat
  stdout : List String
  stderr : List String
deriving DecidableEq, Repr

/-- The answer to arguments that do not lead to an interpretation. -/
def Stop.response : Stop → Response
  | .version => ⟨0, [versionLine], []⟩
  | .help => ⟨0, helpLines, []⟩
  | .usage error =>
    ⟨2, [], ["error: " ++ error.message, "", "For more information, try '--help'."]⟩

/-- The answer when there is no utterance. -/
def noInput : Response := ⟨2, [], ["error: no input provided"]⟩

/-! ## Utterances -/

/-- The lines of a text. A line ends with a line feed, and with a carriage return before it if there
is one; the last line may lack its end. -/
def linesFrom (line : List Char) : List Char → List (List Char)
  | [] => if line.isEmpty then [] else [line]
  | '\n' :: rest =>
    (match line.reverse with
      | '\r' :: stripped => stripped.reverse
      | _ => line) :: linesFrom [] rest
  | c :: rest => linesFrom (line ++ [c]) rest

/-- The lines of the input that are not blank. -/
def inputLines (input : String) : List String :=
  ((linesFrom [] input.toList).filter fun line => !line.all Text.isBlank).map String.ofList

/-- The utterances among the arguments, or if there are none, those of the input. -/
def Settings.utterancesFrom (s : Settings) (input : String) : List String :=
  if s.utterances.isEmpty then inputLines input else s.utterances

/-! ## Answers -/

/-- The scene of an utterance in the coffee shop. -/
def Settings.scene (s : Settings) (utterance : String) : Scene Float :=
  .ofLattice CoffeeShop.menu (CoffeeShop.lexicon.lattice utterance) s.threshold

/-- The report on an utterance in the coffee shop. -/
def Settings.report (s : Settings) (terminal : Bool) (utterance : String) (i : Interpretation)
    (t : Timing) : List String :=
  Report.lines CoffeeShop.menu (s.palette terminal) s.verbose utterance i t

/-- The reports on some utterances, as if none took any time. -/
def Settings.transcript (s : Settings) (terminal : Bool) (cart : Cart) :
    List String → List String
  | [] => []
  | utterance :: rest =>
    let i := (s.scene utterance).interpret cart
    s.report terminal utterance i ⟨0, 0, 0⟩ ++ s.transcript terminal i.cart rest

/-- The answer to arguments and input, as if interpreting took no time. -/
def respond (arguments : List String) (input : String) (terminal : Bool) : Response :=
  match Settings.ofArguments arguments with
  | .error stop => stop.response
  | .ok s =>
    match s.utterancesFrom input with
    | [] => noInput
    | utterances => ⟨0, s.transcript terminal .empty utterances, []⟩

end SpokenOrder.CommandLine
