import SpokenOrder.Grammar.Pattern

/-!
# Grammars

A `Grammar` is an ordered list of rules. It goes through the tokens from left to right with a
context that its rules change. At each position the first rule that fits is taken; where none fits,
one token is passed over. A rule that reads no token does not fit, so every step moves on.

`Grammar.process` asks only the rules whose indispensable kinds all occur among the tokens. The
others could not fit anywhere.
-/

namespace SpokenOrder

/-- What to do where a pattern fits. -/
structure Rule (C : Type) where
  name : String
  /-- Patterns in a row. -/
  pattern : List Pattern
  /-- A last condition on the slots. Where it fails, the rule does not fit. -/
  guard : C → Captures → Bool
  /-- The next context, from the slots and the number of tokens read. With `none`, the context stays
  as it is, but the tokens count as read. -/
  production : C → Captures → Nat → Option C

/-- Rules in the order in which they are tried. -/
structure Grammar (C : Type) where
  /-- Does a token count as one of the kind? -/
  accepts : Kind → Token → Bool
  rules : List (Rule C)

variable {C : Type}

namespace Rule

/-- A rule without a guard. -/
def plain (name : String) (pattern : List Pattern)
    (production : C → Captures → Nat → Option C) : Rule C :=
  ⟨name, pattern, fun _ _ => true, production⟩

/-- The number of slots. -/
def slots (rule : Rule C) : Nat := Pattern.slotsInRow rule.pattern

/-- The kinds that the rule cannot do without. What is optional or one of several choices is not
among them. -/
def required (rule : Rule C) : List Kind :=
  rule.pattern.filterMap fun
    | .token kind => some kind
    | _ => none

/-- The slots, and the number of tokens read, where the rule fits. -/
def fit? (accepts : Kind → Token → Bool) (rule : Rule C) (context : C) (run : Run) :
    Option (Captures × Nat) :=
  match Pattern.readInRow accepts rule.pattern run with
  | none => none
  | some (captures, rest) =>
    let used := run.length - rest.length
    if 0 < used && rule.guard context captures then some (captures, used) else none

end Rule

/-- What one rule did. -/
structure Step (C : Type) where
  context : C
  /-- The rule's name, if it changed the context. -/
  fired : Option String
  /-- The number of tokens read. -/
  used : Nat

namespace Grammar

/-- A grammar in which a token counts as one of its own kind only. -/
def ofRules (rules : List (Rule C)) : Grammar C := ⟨fun kind token => token.kind == kind, rules⟩

/-- What the first rule that fits does. -/
def step? (accepts : Kind → Token → Bool) (rules : List (Rule C)) (context : C) (run : Run) :
    Option (Step C) :=
  rules.findSome? fun rule =>
    (rule.fit? accepts context run).map fun (captures, used) =>
      match rule.production context captures used with
      | some next => ⟨next, some rule.name, used⟩
      | none => ⟨context, none, used⟩

/-- Goes through the tokens, the first `pending` of which are read already: the last context, and
the names of the rules that changed it. -/
def walk (step? : C → Run → Option (Step C)) (context : C) (pending : Nat) :
    Run → C × List String
  | [] => (context, [])
  | p :: rest =>
    match pending with
    | n + 1 => walk step? context n rest
    | 0 =>
      match step? context (p :: rest) with
      | none => walk step? context 0 rest
      | some s =>
        let (context, names) := walk step? s.context (s.used - 1) rest
        (context, s.fired.toList ++ names)

/-- The rules whose required kinds all occur among the tokens. -/
def active (g : Grammar C) (run : Run) : List (Rule C) :=
  g.rules.filter fun rule => rule.required.all fun kind => run.any (g.accepts kind ·.token)

/-- Runs the grammar over some tokens: the last context, and the names of the rules that changed
it, in order. -/
def process (g : Grammar C) (context : C) (run : Run) : C × List String :=
  walk (step? g.accepts (g.active run)) context 0 run

end Grammar

end SpokenOrder
