import SpokenOrder.Token

/-!
# Patterns

A `Pattern` describes a few tokens in a row. Reading tokens by a pattern fills its slots, one for
each token that the pattern can take; the number of slots does not depend on what is read
(`Pattern.slots`), so a slot can be addressed by its position.
-/

namespace SpokenOrder

/-- A description of some tokens in a row. -/
inductive Pattern where
  /-- One token of the kind. -/
  | token (kind : Kind)
  /-- The patterns in a row, or nothing. -/
  | optional (inner : List Pattern)
  /-- The first of the patterns that fits. -/
  | choose (alternatives : List Pattern)

/-- The tokens that a pattern took, with `none` in the slots that stay empty. -/
abbrev Captures := List (Option (Placed Token))

namespace Captures

/-- The token in a slot. -/
def get? (captures : Captures) (slot : Nat) : Option (Placed Token) := (captures[slot]?).join

/-- The tokens in the slots that are not empty. -/
def filled (captures : Captures) : Run := captures.filterMap fun slot => slot

/-- Adds empty slots up to the given number. -/
def padTo (captures : Captures) (slots : Nat) : Captures :=
  captures ++ List.replicate (slots - captures.length) none

end Captures

namespace Pattern

/-! ## Slots -/

mutual

/-- The number of slots of a pattern. -/
def slots : Pattern → Nat
  | .token _ => 1
  | .optional inner => slotsInRow inner
  | .choose alternatives => slotsOfAny alternatives

/-- The number of slots of patterns in a row. -/
def slotsInRow : List Pattern → Nat
  | [] => 0
  | p :: rest => p.slots + slotsInRow rest

/-- The number of slots that is enough for any of the patterns. -/
def slotsOfAny : List Pattern → Nat
  | [] => 0
  | p :: rest => max p.slots (slotsOfAny rest)

end

/-! ## Reading -/

variable (accepts : Kind → Token → Bool)

mutual

/-- Reads tokens by a pattern: the filled slots and the tokens that are left. Whether a token is of
a kind is for `accepts` to say. -/
def read : Pattern → Run → Option (Captures × Run)
  | .token _, [] => none
  | .token kind, p :: rest => if accepts kind p.token then some ([some p], rest) else none
  | .optional inner, run =>
    some ((readInRow inner run).getD (List.replicate (slotsInRow inner) none, run))
  | .choose alternatives, run =>
    (readFirst alternatives run).map fun (captures, rest) =>
      (captures.padTo (slotsOfAny alternatives), rest)

/-- Reads tokens by patterns in a row. -/
def readInRow : List Pattern → Run → Option (Captures × Run)
  | [], run => some ([], run)
  | p :: patterns, run =>
    match p.read run with
    | none => none
    | some (captures, rest) =>
      (readInRow patterns rest).map fun (more, rest) => (captures ++ more, rest)

/-- Reads tokens by the first of the patterns that fits. -/
def readFirst : List Pattern → Run → Option (Captures × Run)
  | [], _ => none
  | p :: patterns, run => (p.read run).or (readFirst patterns run)

end

end Pattern

end SpokenOrder
