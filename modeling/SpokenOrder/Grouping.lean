import SpokenOrder.Token

/-!
# Grouping

Before the grammar looks at a tokenization, the words that nothing explains are dropped and each
run of tokens that can describe an item is folded into one token:

    ADD  NUMBER  ATTRIBUTE  ENTITY  PREPOSITION  ENTITY
    ADD  PRODUCT_PARTS_1[ . . . ]   PREPOSITION  PRODUCT_PARTS_1[ . ]

A run of nothing but conjunctions describes no item and stays as it is.
-/

namespace SpokenOrder.Run

/-- How many products a run names. -/
def entityCount (run : Run) : Nat := run.countP (·.token.kind == .entity)

/-- Is the run made of conjunctions only? -/
def isJoining (run : Run) : Bool := run.all (·.token.kind == .conjunction)

/-- The tokens that stand for a whole run. -/
def fold (run : Run) : Run :=
  if run.isJoining then run
  else match run.span? with
    | none => []
    | some span => [⟨.parts (.of run.entityCount) run, span⟩]

/-- Groups the rest of a tokenization, given the run that has been collected up to here. -/
def groupFrom (collected : Run) : Run → Run
  | [] => fold collected
  | p :: rest =>
    if p.token.isUnknown then groupFrom collected rest
    else if p.token.kind.describesItem then groupFrom (collected ++ [p]) rest
    else fold collected ++ p :: groupFrom [] rest

/-- Drops unknown words and folds the runs that describe items. -/
def group (run : Run) : Run := groupFrom [] run

end SpokenOrder.Run
