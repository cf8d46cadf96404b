import SpokenOrder.Token

/-!
# Particulars

What the words around an item say about it: how many, which attributes, which options and recipes.
Whether the menu allows any of it is not asked yet.
-/

namespace SpokenOrder

/-- An option or recipe that was named, with the number of tokens that name it. -/
inductive Part where
  | option (pid : Pid) (attributes : List Aid) (quantity : Nat) (tokens : Nat)
  | recipe (rid : Rid) (tokens : Nat)
deriving DecidableEq, Repr

/-- The number of tokens that name the part. -/
def Part.tokens : Part → Nat
  | .option _ _ _ tokens => tokens
  | .recipe _ tokens => tokens

/-- What some words say about an item. -/
structure Particulars where
  quantity : Option Nat
  /-- At most one attribute on each dimension. -/
  attributes : List Aid
  /-- The dimensions of the attributes. -/
  dimensions : List Did
  parts : List Part
  /-- The number of tokens that were put to use. -/
  used : Nat
deriving DecidableEq, Repr

namespace Particulars

/-- Nothing said. -/
def empty : Particulars := ⟨none, [], [], [], 0⟩

/-- The options that were named, each with its attributes. -/
def options (s : Particulars) : List (Pid × List Aid) :=
  s.parts.filterMap fun
    | .option pid attributes _ _ => some (pid, attributes)
    | .recipe .. => none

end Particulars

end SpokenOrder
