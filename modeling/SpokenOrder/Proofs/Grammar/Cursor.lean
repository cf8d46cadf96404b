import SpokenOrder.Proofs.Grammar.Captures

/-!
# Reading with a cursor

Patterns can also be read with a `Cursor`, which has a position among the tokens and a stack of
positions to go back to. Reading then appends to the slots that are filled already, and what a
failed attempt has appended is cut off again. A cursor faults when a token is taken past the end, or
when it is to go back to a position without having marked one.

Neither ever happens, and all marks are dropped again: an attempt appends what `Pattern.read` says
and moves the cursor over the tokens in the new slots, or leaves everything as it was
(`Pattern.attempt_eq`); so does an attempt by a rule (`Rule.attempt_eq`); and going through all
tokens in this way does what `Grammar.process` does (`Grammar.runFrom_eq`).
-/

namespace SpokenOrder

/-- A position among some tokens, and positions to go back to, the latest first. -/
structure Cursor where
  items : Run
  position : Nat
  checkpoints : List Nat

namespace Cursor

/-- What a cursor cannot do. -/
inductive Fault where
  /-- To take a token where there is none. -/
  | pastEnd
  /-- To go back, or to keep a position, without a mark. -/
  | noMark

/-- Before the first of some tokens. -/
def ofRun (run : Run) : Cursor := ⟨run, 0, []⟩

/-- The token at the cursor. -/
def peek? (c : Cursor) : Option (Placed Token) := c.items[c.position]?

/-- Takes the token at the cursor. -/
def take (c : Cursor) : Except Fault (Placed Token × Cursor) :=
  match c.peek? with
  | none => .error .pastEnd
  | some p => .ok (p, { c with position := c.position + 1 })

/-- Are all tokens behind the cursor? -/
def atEnd (c : Cursor) : Bool := c.items.length ≤ c.position

/-- Puts the position on the stack. -/
def mark (c : Cursor) : Cursor := { c with checkpoints := c.position :: c.checkpoints }

/-- Goes back to the latest mark. -/
def restore (c : Cursor) : Except Fault Cursor :=
  match c.checkpoints with
  | [] => .error .noMark
  | position :: below => .ok { c with position := position, checkpoints := below }

/-- Stays, and drops the latest mark. -/
def commit (c : Cursor) : Except Fault Cursor :=
  match c.checkpoints with
  | [] => .error .noMark
  | _ :: below => .ok { c with checkpoints := below }

/-- The tokens from the cursor on. -/
def rest (c : Cursor) : Run := c.items.drop c.position

/-- So many tokens further on. -/
def advance (c : Cursor) (n : Nat) : Cursor := { c with position := c.position + n }

end Cursor

namespace Captures

/-- Cuts off what is behind so many slots. -/
def truncate (captures : Captures) (slots : Nat) : Captures := List.take slots captures

/-- Cuts off slots, or adds empty ones, until there are so many. -/
def resize (captures : Captures) (slots : Nat) : Captures := (captures.truncate slots).padTo slots

end Captures

/-- What an attempt to read came to. -/
structure Attempt where
  fits : Bool
  cursor : Cursor
  captures : Captures

open Cursor (Fault)

namespace Pattern

variable (accepts : Kind → Token → Bool)

mutual

/-- Attempts to read by a pattern at the cursor. -/
def attempt : Pattern → Cursor → Captures → Except Fault Attempt
  | .token kind, c, captures =>
    match c.peek? with
    | none => .ok ⟨false, c, captures⟩
    | some p =>
      if accepts kind p.token then do
        let (taken, c) ← c.take
        return ⟨true, c, captures ++ [some taken]⟩
      else .ok ⟨false, c, captures⟩
  | .optional inner, c, captures => do
    let a ← attemptRow inner c.mark captures
    if a.fits then
      return { a with cursor := ← a.cursor.commit }
    else
      let kept := a.captures.truncate captures.length
      return ⟨true, ← a.cursor.restore, kept.resize (captures.length + slotsInRow inner)⟩
  | .choose alternatives, c, captures =>
    attemptFirst captures.length (captures.length + slotsOfAny alternatives) alternatives c captures

/-- Attempts to read by patterns in a row. -/
def attemptRow : List Pattern → Cursor → Captures → Except Fault Attempt
  | [], c, captures => .ok ⟨true, c, captures⟩
  | p :: patterns, c, captures => do
    let a ← p.attempt c captures
    if a.fits then attemptRow patterns a.cursor a.captures else return a

/-- Attempts to read by one of the patterns after the other: from `before` slots, up to `slots`. -/
def attemptFirst (before slots : Nat) : List Pattern → Cursor → Captures → Except Fault Attempt
  | [], c, captures => .ok ⟨false, c, captures⟩
  | p :: patterns, c, captures => do
    let a ← p.attempt c.mark captures
    if a.fits then
      return ⟨true, ← a.cursor.commit, a.captures.resize slots⟩
    else
      attemptFirst before slots patterns (← a.cursor.restore) (a.captures.truncate before)

end

end Pattern

variable {C : Type}

/-- Attempts to read by a rule at the cursor: the slots and the number of tokens read, if the rule
fits, and where the cursor is then. -/
def Rule.attempt (accepts : Kind → Token → Bool) (rule : Rule C) (context : C) (c : Cursor) :
    Except Fault (Option (Captures × Nat) × Cursor) := do
  let a ← Pattern.attemptRow accepts rule.pattern c.mark []
  if a.fits && decide (c.position < a.cursor.position) && rule.guard context a.captures then
    let behind ← a.cursor.commit
    return (some (a.captures, behind.position - c.position), behind)
  else
    return (none, ← a.cursor.restore)

/-- What is done at the cursor: what the first rule that fits does, or one token is passed over. -/
def Grammar.turn (accepts : Kind → Token → Bool) (context : C) (c : Cursor) :
    List (Rule C) → Except Fault (Step C × Cursor)
  | [] => do
    let (_, c) ← c.take
    return (⟨context, none, 1⟩, c)
  | rule :: rules => do
    let (found, c) ← rule.attempt accepts context c
    match found with
    | some (captures, used) => return (stepOf rule context captures used, c)
    | none => turn accepts context c rules

/-! ## The cursor -/

namespace Cursor

variable {c : Cursor} {n : Nat}

@[simp] theorem rest_mark : c.mark.rest = c.rest := rfl

@[simp] theorem rest_advance : (c.advance n).rest = c.rest.drop n := by
  simp only [rest, advance, List.drop_drop]

/-- A cursor goes on step by step. -/
theorem advance_advance (m n : Nat) : (c.advance m).advance n = c.advance (m + n) := by
  simp only [advance, Nat.add_assoc]

theorem peek?_eq : c.peek? = c.rest.head? := List.head?_drop.symm

/-- To take a token is to go on by one. -/
theorem take_of_rest {p : Placed Token} {behind : Run} (h : c.rest = p :: behind) :
    c.take = .ok (p, c.advance 1) := by
  rw [take, peek?_eq, h]
  rfl

/-- A cursor is at the end when nothing is left. -/
theorem atEnd_iff : c.atEnd = true ↔ c.rest = [] := by
  rw [atEnd, decide_eq_true_iff, rest, List.drop_eq_nil_iff]

end Cursor

/-! ## Attempts by patterns -/

/-- What reading comes to at a cursor: what is read fills new slots and is passed over, or all is as
it was. -/
def Attempt.ofRead (c : Cursor) (captures : Captures) : Option (Captures × Run) → Attempt
  | some (more, _) => ⟨true, c.advance more.filled.length, captures ++ more⟩
  | none => ⟨false, c, captures⟩

/-- What reading a row comes to at a cursor. A row that fails may have read something before. -/
inductive Attempt.OfRow (c : Cursor) (captures : Captures) :
    Option (Captures × Run) → Attempt → Prop
  | fits (more : Captures) (rest : Run) : OfRow c captures (some (more, rest))
      ⟨true, c.advance more.filled.length, captures ++ more⟩
  | fails (n : Nat) (more : Captures) : OfRow c captures none
      ⟨false, c.advance n, captures ++ more⟩

namespace Attempt.OfRow

variable {c : Cursor} {captures : Captures}

/-- A row that reads nothing fits where the cursor is. -/
theorem fits_nothing (rest : Run) : OfRow c captures (some ([], rest)) ⟨true, c, captures⟩ := by
  have h := @fits c captures [] rest
  rwa [List.append_nil] at h

/-- A row may fail before it has read anything. -/
theorem fails_here : OfRow c captures none ⟨false, c, captures⟩ := by
  have h := @fails c captures 0 []
  rwa [List.append_nil] at h

/-- What the rest of a row comes to, behind the slots that its first pattern has filled. -/
theorem cons {first : Captures} {out : Option (Captures × Run)} {a : Attempt}
    (h : OfRow (c.advance first.filled.length) (captures ++ first) out a) :
    OfRow c captures (out.map fun behind => (first ++ behind.1, behind.2)) a := by
  cases h with
  | fits more rest =>
    have hfits := @fits c captures (first ++ more) rest
    rwa [Captures.filled_append, List.length_append, ← Cursor.advance_advance,
      ← List.append_assoc] at hfits
  | fails n more =>
    rw [Cursor.advance_advance, List.append_assoc]
    exact fails _ _

end Attempt.OfRow

namespace Captures

variable {captures more : Captures} {slots : Nat}

/-- Cutting off what was appended. -/
theorem truncate_append : (captures ++ more).truncate captures.length = captures := List.take_left

/-- Slots that are resized are padded. -/
theorem resize_append (h : more.length ≤ slots) :
    (captures ++ more).resize (captures.length + slots) = captures ++ more.padTo slots := by
  have htake : (captures ++ more).truncate (captures.length + slots) = captures ++ more := by
    refine List.take_of_length_le ?_
    rw [List.length_append]
    exact Nat.add_le_add_left h _
  rw [resize, htake, padTo, padTo, List.append_assoc, List.length_append, Nat.add_sub_add_left]

/-- Empty slots behind others. -/
theorem resize_self (slots : Nat) :
    captures.resize (captures.length + slots) = captures ++ List.replicate slots none := by
  have h := @resize_append captures [] slots (Nat.zero_le slots)
  rwa [List.append_nil] at h

end Captures

namespace Pattern

variable {accepts : Kind → Token → Bool}

/-- What a pattern has read is passed over. -/
theorem rest_advance_of_read {p : Pattern} {c : Cursor} {more : Captures} {behind : Run}
    (h : p.read accepts c.rest = some (more, behind)) :
    (c.advance more.filled.length).rest = behind := by
  rw [Cursor.rest_advance, ← (takes_of_read h).filled, List.drop_left]

mutual

/-- An attempt by a pattern comes to what is read. -/
theorem attempt_eq : ∀ (p : Pattern) (c : Cursor) (captures : Captures),
    p.attempt accepts c captures = .ok (.ofRead c captures (p.read accepts c.rest))
  | .token kind, c, captures => by
    rw [attempt, Cursor.peek?_eq]
    cases hrest : c.rest with
    | nil => rfl
    | cons p behind =>
      simp only [List.head?_cons, Cursor.take_of_rest hrest, read]
      split <;> rfl
  | .optional inner, c, captures => by
    obtain ⟨a, ha, hrow⟩ := attemptRow_eq inner c.mark captures
    rw [attempt, ha, read, ← Cursor.rest_mark]
    cases hread : readInRow accepts inner c.mark.rest with
    | none =>
      rw [hread] at hrow
      cases hrow with
      | fails n more =>
        change Except.ok (Attempt.mk true c (Captures.resize
          (Captures.truncate (captures ++ more) captures.length) _)) = _
        rw [Captures.truncate_append, Captures.resize_self, Option.getD_none, Attempt.ofRead,
          Captures.filled_replicate_none]
        rfl
    | some out =>
      rw [hread] at hrow
      cases hrow with
      | fits more behind => rfl
  | .choose alternatives, c, captures => by
    rw [attempt, attemptFirst_eq alternatives c captures (Nat.le_refl _), read]

/-- An attempt by a row comes to what is read, or it fails somewhere in the row. -/
theorem attemptRow_eq : ∀ (patterns : List Pattern) (c : Cursor) (captures : Captures),
    ∃ a, attemptRow accepts patterns c captures = .ok a ∧
      Attempt.OfRow c captures (readInRow accepts patterns c.rest) a
  | [], c, captures => ⟨_, rfl, .fits_nothing c.rest⟩
  | p :: patterns, c, captures => by
    rw [attemptRow, attempt_eq p c captures, readInRow]
    cases hread : p.read accepts c.rest with
    | none => exact ⟨_, rfl, .fails_here⟩
    | some out =>
      obtain ⟨first, behind⟩ := out
      obtain ⟨a, ha, hrow⟩ := attemptRow_eq patterns (c.advance first.filled.length)
        (captures ++ first)
      rw [rest_advance_of_read hread] at hrow
      exact ⟨a, ha, hrow.cons⟩

/-- An attempt by one pattern after the other comes to what is read. -/
theorem attemptFirst_eq : ∀ (patterns : List Pattern) (c : Cursor) (captures : Captures)
    {slots : Nat}, slotsOfAny patterns ≤ slots →
      attemptFirst accepts captures.length (captures.length + slots) patterns c captures =
        .ok (.ofRead c captures ((readFirst accepts patterns c.rest).map fun out =>
          (out.1.padTo slots, out.2)))
  | [], c, captures, slots, _ => rfl
  | p :: patterns, c, captures, slots, hslots => by
    rw [slotsOfAny, Nat.max_le] at hslots
    rw [attemptFirst, attempt_eq p c.mark captures, Cursor.rest_mark, readFirst]
    cases hread : p.read accepts c.rest with
    | none =>
      have hkept : captures.truncate captures.length = captures := List.take_length
      rw [Option.none_or, ← attemptFirst_eq patterns c captures hslots.2]
      change attemptFirst _ _ _ patterns c (captures.truncate _) = _
      rw [hkept]
    | some out =>
      obtain ⟨more, behind⟩ := out
      have hlength := (takes_of_read hread).length
      simp only [Option.some_or, Option.map_some, Attempt.ofRead, Captures.filled_padTo]
      rw [← Captures.resize_append (hlength ▸ hslots.1)]
      rfl

end

end Pattern

/-! ## Attempts by rules -/

/-- An attempt by a rule finds whether the rule fits, and passes over what it has read then. -/
theorem Rule.attempt_eq {accepts : Kind → Token → Bool} (rule : Rule C) (context : C) (c : Cursor) :
    rule.attempt accepts context c =
      .ok (rule.fit? accepts context c.rest,
        c.advance (((rule.fit? accepts context c.rest).map Prod.snd).getD 0)) := by
  obtain ⟨a, ha, hrow⟩ := @Pattern.attemptRow_eq accepts rule.pattern c.mark []
  rw [attempt, ha, fit?, ← Cursor.rest_mark]
  cases hread : Pattern.readInRow accepts rule.pattern c.mark.rest with
  | none =>
    rw [hread] at hrow
    cases hrow
    rfl
  | some out =>
    obtain ⟨captures, rest⟩ := out
    rw [hread] at hrow
    cases hrow
    have hlength : c.mark.rest.length - rest.length = captures.filled.length := by
      rw [← (Pattern.takes_of_readInRow hread).filled, List.length_append, Nat.add_sub_cancel]
    change (if (true && decide (c.position < c.position + captures.filled.length) &&
        rule.guard context captures) = true then
      Except.ok (some (captures, c.position + captures.filled.length - c.position),
        c.advance captures.filled.length)
      else .ok (none, c)) = _
    simp only [hlength, Bool.true_and, Nat.lt_add_right_iff_pos, Nat.add_sub_cancel_left]
    split <;> rfl

namespace Grammar

variable {accepts : Kind → Token → Bool} {rules : List (Rule C)} {context : C}

/-! ## Turns -/

/-- A turn does what is to be done, and passes over what that takes. -/
theorem turn_eq {c : Cursor} (h : c.rest ≠ []) : turn accepts context c rules =
    .ok (stepAt accepts rules context c.rest,
      c.advance (stepAt accepts rules context c.rest).used) := by
  induction rules with
  | nil =>
    obtain ⟨p, behind, hrest⟩ := List.exists_cons_of_ne_nil h
    rw [turn, Cursor.take_of_rest hrest]
    rfl
  | cons rule rules ih =>
    rw [turn, rule.attempt_eq, stepAt, step?_eq, List.findSome?_cons]
    cases hfit : rule.fit? accepts context c.rest with
    | none => exact ih
    | some out =>
      simp only [Option.map_some, Option.getD_some, used_stepOf]
      rfl

/-- Each turn goes on, so that less is left. -/
theorem shorter_of_turn {c next : Cursor} {s : Step C} (hend : ¬ c.atEnd)
    (hturn : turn accepts context c rules = .ok (s, next)) : next.rest.length < c.rest.length := by
  have hne : c.rest ≠ [] := mt Cursor.atEnd_iff.2 hend
  rw [turn_eq hne] at hturn
  cases hturn
  rw [Cursor.rest_advance, List.length_drop]
  exact Nat.sub_lt (List.length_pos_iff.2 hne) (used_stepAt_pos ..)

/-! ## Whole runs -/

/-- Goes through the tokens from the cursor on: the last context, and the names of the rules that
changed it. -/
def runFrom (accepts : Kind → Token → Bool) (rules : List (Rule C)) (context : C) (c : Cursor) :
    Except Fault (C × List String) :=
  if hend : c.atEnd then .ok (context, [])
  else
    match hturn : turn accepts context c rules with
    | .error fault => .error fault
    | .ok (s, next) =>
      have := shorter_of_turn hend hturn
      (runFrom accepts rules s.context next).map fun (last, names) =>
        (last, s.fired.toList ++ names)
termination_by c.rest.length

/-- Going through the tokens with a cursor does not fault, and does the same. -/
theorem runFrom_eq (context : C) (c : Cursor) : runFrom accepts rules context c =
    .ok (walk (step? accepts rules) context 0 c.rest) := by
  fun_induction runFrom accepts rules context c with
  | case1 context c hend => rw [Cursor.atEnd_iff.1 hend, walk]
  | case2 context c hend fault hturn =>
    rw [turn_eq (mt Cursor.atEnd_iff.2 hend)] at hturn
    cases hturn
  | case3 context c hend s next hturn hshorter ih =>
    have hne : c.rest ≠ [] := mt Cursor.atEnd_iff.2 hend
    rw [turn_eq hne] at hturn
    cases hturn
    rw [ih, Cursor.rest_advance, walk_eq_of_ne_nil hne]
    rfl

/-- Going through some tokens with a cursor. -/
def run (g : Grammar C) (context : C) (run : Run) : Except Fault (C × List String) :=
  runFrom g.accepts (g.active run) context (.ofRun run)

/-- A grammar on a cursor never fails, and comes to what `process` does. -/
theorem run_eq_process (g : Grammar C) (context : C) (run : Run) :
    g.run context run = .ok (g.process context run) :=
  runFrom_eq context (.ofRun run)

end Grammar

end SpokenOrder
