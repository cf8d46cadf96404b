import SpokenOrder.Identifier

/-!
# What can go wrong while a menu is written

Understanding an utterance never fails; writing a menu can. `MenuError` lists the causes, and
`MenuError.message` words them.
-/

namespace SpokenOrder

/-- Why an addition to a menu was refused. -/
inductive MenuError where
  | duplicateDimension (did : Did)
  | duplicateMatrix (mid : Mid)
  | duplicateEntity (pid : Pid)
  /-- An attribute of the new dimension is already an attribute of another. -/
  | duplicateAttribute (aid : Aid) (existing : Did)
  | duplicateRecipe (rid : Rid)
  | unknownDimension (did : Did)
  | unknownMatrix (mid : Mid)
  /-- A dimension has one default attribute, and this one would have had another number of them. -/
  | badDefault (did : Did) (found : Nat)
  /-- The text is no expression for a set of parents. -/
  | unknownMatcher (expression : String)
deriving DecidableEq, Repr

/-- The wording of an error. -/
def MenuError.message : MenuError → String
  | duplicateDimension did => s!"duplicate dimension id {did}"
  | duplicateMatrix mid => s!"duplicate matrix id {mid}"
  | duplicateEntity pid => s!"duplicate entity id {pid}"
  | duplicateAttribute aid existing => s!"attribute {aid} already belongs to dimension {existing}"
  | duplicateRecipe rid => s!"duplicate recipe id {rid}"
  | unknownDimension did => s!"unknown dimension id {did}"
  | unknownMatrix mid => s!"unknown matrix id {mid}"
  | badDefault did found =>
    s!"dimension {did} must have exactly one default attribute, found {found}"
  | unknownMatcher expression => s!"unknown matcher expression '{expression}'"

end SpokenOrder
