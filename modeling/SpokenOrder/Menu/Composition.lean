import SpokenOrder.Menu.KeyMatcher

/-!
# What may go on what

A `Composition` says which options may go on which parents, and which options exclude one another
there. `Admission` is the second rule as a gate: options come one by one, and an option is turned
away when its exclusion set has already let one through.
-/

namespace SpokenOrder

/-- A rule about some options, on every parent of a set. -/
structure OptionRule where
  parents : KeyMatcher
  options : List Pid
deriving DecidableEq, Repr

/-- The rules of a menu about options, each list in the order in which they were added. -/
structure Composition where
  allowed : List OptionRule
  exclusive : List OptionRule
deriving DecidableEq, Repr

/-- The exclusion sets of one parent, each with a mark whether it has let an option through. -/
abbrev Admission := List (List Pid × Bool)

namespace Composition

/-- No rules, so no options. -/
def empty : Composition := ⟨[], []⟩

/-- Lets the options go on the parents. -/
def allow (c : Composition) (parents : String) (options : List Pid) :
    Except MenuError Composition :=
  (KeyMatcher.parse parents).map fun m => { c with allowed := c.allowed ++ [⟨m, options⟩] }

/-- Makes the options exclude one another on the parents. -/
def addExclusion (c : Composition) (parents : String) (options : List Pid) :
    Except MenuError Composition :=
  (KeyMatcher.parse parents).map fun m => { c with exclusive := c.exclusive ++ [⟨m, options⟩] }

/-- May the child go on the parent? -/
def isValidChild (c : Composition) (parent child : Key) : Bool :=
  c.allowed.any fun rule => rule.parents.covers parent && rule.options.contains child.pid

/-- The exclusion sets that apply to a parent. -/
def exclusionSets (c : Composition) (parent : Key) : List (List Pid) :=
  (c.exclusive.filter (·.parents.covers parent)).map (·.options)

/-- Is it impossible for both to go on the parent? Two variants of one generic option conflict, and
so do two members of one exclusion set. -/
def conflicts (c : Composition) (parent a b : Key) : Bool :=
  a.pid == b.pid
    || (c.exclusionSets parent).any fun set => set.contains a.pid && set.contains b.pid

/-- The gate for a parent on which no option has been put yet. -/
def admission (c : Composition) (parent : Key) : Admission :=
  (c.exclusionSets parent).map (·, false)

end Composition

/-- Offers an option to the gate, which answers whether it lets the option through. The first set
that holds the option decides, and is marked; an option in no set always passes. -/
def Admission.offer : Admission → Pid → Bool × Admission
  | [], _ => (true, [])
  | (set, taken) :: rest, pid =>
    if set.contains pid then (!taken, (set, true) :: rest)
    else
      let (passes, rest) := offer rest pid
      (passes, (set, taken) :: rest)

end SpokenOrder
