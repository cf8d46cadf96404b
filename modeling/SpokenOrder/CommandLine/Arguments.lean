import SpokenOrder.Report
import SpokenOrder.Text.ControlSequence
import SpokenOrder.Text.Decimal

/-!
# Arguments

The arguments of the program are utterances and options, in any order. After `--` everything is an
utterance. The value of `--threshold` may follow as an argument of its own; it is looked at only
when the next argument, or the end, shows that nothing more belongs to it.
-/

namespace SpokenOrder.CommandLine

/-! ## What arguments say -/

/-- Options without a value. -/
inductive Flag where
  | verbose
  | color
  | noColor
  | version
  | help
deriving DecidableEq, Repr

namespace Flag

/-- The name of a flag, after two hyphens. -/
def name : Flag → String
  | .verbose => "verbose"
  | .color => "color"
  | .noColor => "no-color"
  | .version => "version"
  | .help => "help"

/-- The flag with the given name. -/
def ofName? (name : String) : Option Flag :=
  [verbose, color, noColor, version, help].find? (·.name == name)

/-- The flag with the given letter, after one hyphen. -/
def ofLetter? : Char → Option Flag
  | 'v' => some .verbose
  | 'V' => some .version
  | 'h' => some .help
  | _ => none

end Flag

/-- The threshold option in messages. -/
def thresholdUsage : String := "--threshold <THRESHOLD>"

/-- What is wrong with the arguments. -/
inductive UsageError where
  | unexpectedArgument (argument : String)
  /-- An option that makes sense only once. -/
  | repeated (usage : String)
  /-- The threshold has no value. -/
  | missingValue
  /-- A flag has a value. -/
  | unneededValue (value : String) (flag : Flag)
  /-- The threshold is not a number. -/
  | invalidNumber (text : String)
deriving DecidableEq, Repr

/-- The wording of an error. What it repeats of the arguments cannot disturb a terminal. -/
def UsageError.message : UsageError → String
  | .unexpectedArgument argument =>
    "unexpected argument '" ++ Text.visible argument ++ "' found"
  | .repeated usage => "the argument '" ++ usage ++ "' cannot be used multiple times"
  | .missingValue => "a value is required for '" ++ thresholdUsage ++ "' but none was supplied"
  | .unneededValue value flag =>
    "unexpected value '" ++ Text.visible value ++ "' for '--" ++ flag.name ++ "' found; no more were expected"
  | .invalidNumber text =>
    "invalid value '" ++ Text.visible text ++ "' for '" ++ thresholdUsage ++ "': "
      ++ (if text.isEmpty then "cannot parse float from empty string" else "invalid float literal")

/-- Why the arguments do not lead to an interpretation. -/
inductive Stop where
  | version
  | help
  | usage (error : UsageError)
deriving DecidableEq, Repr

/-- What the arguments ask for. -/
structure Settings where
  utterances : List String
  threshold : Float
  verbose : Bool
  color : Bool
  noColor : Bool

/-! ## Reading arguments -/

/-- A threshold whose value may still be missing, or has still to be looked at. -/
inductive Pending where
  | nothing
  | awaiting
  | value (text : String)
deriving DecidableEq, Repr

/-- What the arguments up to here say. -/
structure Progress where
  utterances : List String
  threshold : Option Float
  flags : List Flag
  pending : Pending

namespace Progress

/-- Nothing said. -/
def start : Progress := ⟨[], none, [], .nothing⟩

/-- Sets the threshold. -/
def setThreshold (s : Progress) (text : String) : Except Stop Progress :=
  if s.threshold.isSome then .error (.usage (.repeated thresholdUsage))
  else match Text.readFloat? text.toList with
    | none => .error (.usage (.invalidNumber text))
    | some x => .ok { s with threshold := some x }

/-- Settles a pending threshold. -/
def settle (s : Progress) : Except Stop Progress :=
  match s.pending with
  | .nothing => .ok s
  | .awaiting => .error (.usage .missingValue)
  | .value text => { s with pending := .nothing }.setThreshold text

/-- Raises a flag. -/
def raise (s : Progress) (flag : Flag) : Except Stop Progress := do
  let s ← s.settle
  match flag with
  | .version => .error .version
  | .help => .error .help
  | _ =>
    if s.flags.contains flag then .error (.usage (.repeated ("--" ++ flag.name)))
    else .ok { s with flags := s.flags ++ [flag] }

/-- Raises the flags whose letters follow one hyphen. -/
def raiseLetters (s : Progress) : List Char → Except Stop Progress
  | [] => .ok s
  | c :: rest =>
    match Flag.ofLetter? c with
    | none => .error (.usage (.unexpectedArgument (String.ofList ['-', c])))
    | some flag => do
      let s ← s.raise flag
      s.raiseLetters rest

/-- Takes an option with a long name, and its value if one is attached. -/
def takeLong (s : Progress) (name : String) (value : Option String) : Except Stop Progress :=
  if name == "threshold" then do
    let s ← s.settle
    match value with
    | some text => s.setThreshold text
    | none => .ok { s with pending := .awaiting }
  else match Flag.ofName? name, value with
    | none, _ => .error (.usage (.unexpectedArgument ("--" ++ name)))
    | some flag, some text => .error (.usage (.unneededValue text flag))
    | some flag, none => s.raise flag

/-- Takes an argument that is no option: the value that the threshold waits for, or an utterance. -/
def takeWord (s : Progress) (text : String) : Except Stop Progress :=
  if s.pending = .awaiting then .ok { s with pending := .value text }
  else do
    let s ← s.settle
    return { s with utterances := s.utterances ++ [text] }

/-- Takes one argument, other than `--`. -/
def take (s : Progress) (argument : String) : Except Stop Progress :=
  match argument.toList with
  | '-' :: '-' :: rest =>
    let name := String.ofList (rest.takeWhile (· != '='))
    match rest.dropWhile (· != '=') with
    | [] => s.takeLong name none
    | _ :: value => s.takeLong name (some (String.ofList value))
  | '-' :: c :: rest => s.raiseLetters (c :: rest)
  | _ => s.takeWord argument

/-- Takes all arguments. -/
def takeAll (s : Progress) : List String → Except Stop Progress
  | [] => s.settle
  | argument :: rest =>
    if argument == "--" then do
      let s ← s.settle
      return { s with utterances := s.utterances ++ rest }
    else do
      let s ← s.take argument
      s.takeAll rest

/-- The settings, with defaults for what was not said. -/
def settings (s : Progress) : Settings where
  utterances := s.utterances
  threshold := s.threshold.getD defaultThreshold
  verbose := s.flags.contains .verbose
  color := s.flags.contains .color
  noColor := s.flags.contains .noColor

end Progress

/-- What the arguments ask for, or why they ask for nothing. -/
def Settings.ofArguments (arguments : List String) : Except Stop Settings :=
  (Progress.start.takeAll arguments).map Progress.settings

/-- Are styles shown? The arguments decide before the terminal does. -/
def Settings.palette (s : Settings) (terminal : Bool) : Palette :=
  ⟨!s.noColor && (s.color || terminal)⟩

end SpokenOrder.CommandLine
