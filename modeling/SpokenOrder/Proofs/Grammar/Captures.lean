import Mathlib.Algebra.Ring.Nat
import SpokenOrder.Proofs.Grammar.Derivation

/-!
# What the slots hold

The tokens that a row of patterns takes are the ones in its filled slots, each of a kind that the
patterns ask for (`Pattern.takes_of_readInRow`). The slot of a token pattern, which can be told from
the patterns before it, holds a token that the pattern accepts (`Pattern.exists_in_slot`). A run of a
grammar takes each token once at most, so if no rule raises a measure of the context by more than the
tokens that it takes are worth, the run does not raise it by more than all tokens are worth
(`Grammar.Runs.measure_le`). More exactly, a run cuts the tokens into pieces (`Grammar.Traces`,
`Grammar.Runs.exists_traces`), and a measure that each rule raises by what its tokens are worth rises
by what the pieces of the rules that fired are worth (`Grammar.Traces.measure_eq`).
-/

namespace SpokenOrder

namespace Captures

variable {captures : Captures} {slot : Nat} {p : Placed Token}

@[simp] theorem filled_nil : filled [] = [] := rfl

@[simp] theorem filled_append (xs ys : Captures) : filled (xs ++ ys) = filled xs ++ filled ys :=
  List.filterMap_append

@[simp] theorem filled_replicate_none (n : Nat) : filled (List.replicate n none) = [] := by
  simp [filled]

@[simp] theorem filled_padTo (captures : Captures) (slots : Nat) :
    (captures.padTo slots).filled = captures.filled := by simp [padTo]

/-- Padding fills up to the given number of slots. -/
theorem length_padTo {slots : Nat} (h : captures.length ≤ slots) :
    (captures.padTo slots).length = slots := by
  rw [padTo, List.length_append, List.length_replicate]
  omega

/-- Around a slot that holds a token, there are the slots before it and the slots behind it. -/
theorem exists_split_of_get? (h : captures.get? slot = some p) :
    ∃ before after, captures = before ++ some p :: after ∧ before.length = slot := by
  obtain ⟨hlt, hget⟩ := List.getElem?_eq_some_iff.1 (Option.join_eq_some_iff.1 h)
  refine ⟨captures.take slot, captures.drop (slot + 1), ?_, ?_⟩
  · rw [← hget, List.getElem_cons_drop, List.take_append_drop]
  · rw [List.length_take]
    omega

/-- A token in a slot is one of the tokens in slots. -/
theorem mem_filled_of_get? (h : captures.get? slot = some p) : p ∈ captures.filled := by
  obtain ⟨before, after, rfl, -⟩ := exists_split_of_get? h
  rw [filled_append]
  exact List.mem_append_right _ List.mem_cons_self

end Captures

namespace Pattern

variable {accepts : Kind → Token → Bool}

/-! ## What reading takes -/

mutual

/-- The kinds that a pattern asks for. -/
def kinds : Pattern → List Kind
  | .token kind => [kind]
  | .optional inner => kindsInRow inner
  | .choose alternatives => kindsInRow alternatives

/-- The kinds that some patterns ask for. -/
def kindsInRow : List Pattern → List Kind
  | [] => []
  | p :: rest => p.kinds ++ kindsInRow rest

end

/-- The tokens in front of the rest are in so many slots, and each is of one of the kinds. -/
structure Takes (accepts : Kind → Token → Bool) (kinds : List Kind) (slots : Nat) (run : Run)
    (captures : Captures) (rest : Run) : Prop where
  filled : captures.filled ++ rest = run
  length : captures.length = slots
  exists_kind : ∀ q ∈ captures.filled, ∃ kind ∈ kinds, accepts kind q.token = true

namespace Takes

variable {kinds more : List Kind} {m n : Nat} {run mid rest : Run} {xs ys : Captures}

/-- Empty slots take nothing. -/
theorem nothing (kinds : List Kind) (n : Nat) (run : Run) :
    Takes accepts kinds n run (List.replicate n none) run where
  filled := by rw [Captures.filled_replicate_none]; rfl
  length := List.length_replicate
  exists_kind := by simp

/-- One token of a kind takes one slot. -/
theorem one {kind : Kind} {p : Placed Token} (h : accepts kind p.token = true) (rest : Run) :
    Takes accepts [kind] 1 (p :: rest) [some p] rest where
  filled := rfl
  length := rfl
  exists_kind _ hq := ⟨kind, List.mem_singleton_self _, List.mem_singleton.1 hq ▸ h⟩

/-- What is taken after something else goes into the slots behind. -/
theorem append (h : Takes accepts kinds m run xs mid) (h' : Takes accepts more n mid ys rest) :
    Takes accepts (kinds ++ more) (m + n) run (xs ++ ys) rest where
  filled := by rw [Captures.filled_append, List.append_assoc, h'.filled, h.filled]
  length := by rw [List.length_append, h.length, h'.length]
  exists_kind q hq := by
    rw [Captures.filled_append] at hq
    rcases List.mem_append.1 hq with hq | hq
    · obtain ⟨kind, hkind, hacc⟩ := h.exists_kind q hq
      exact ⟨kind, List.mem_append_left _ hkind, hacc⟩
    · obtain ⟨kind, hkind, hacc⟩ := h'.exists_kind q hq
      exact ⟨kind, List.mem_append_right _ hkind, hacc⟩

/-- More slots take no more tokens. -/
theorem padTo (h : Takes accepts kinds m run xs rest) (hle : m ≤ n) :
    Takes accepts kinds n run (xs.padTo n) rest where
  filled := by rw [Captures.filled_padTo, h.filled]
  length := Captures.length_padTo (h.length ▸ hle)
  exists_kind q hq := h.exists_kind q (Captures.filled_padTo xs n ▸ hq)

/-- What is of some kinds is of these and others. -/
theorem mono (h : Takes accepts kinds n run xs rest) (hsub : kinds ⊆ more) :
    Takes accepts more n run xs rest where
  filled := h.filled
  length := h.length
  exists_kind q hq := (h.exists_kind q hq).imp fun _ hkind => ⟨hsub hkind.1, hkind.2⟩

end Takes

mutual

/-- A pattern takes tokens of its kinds into as many slots as it has. -/
theorem takes_of_read : ∀ {p : Pattern} {run : Run} {captures : Captures} {rest : Run},
    p.read accepts run = some (captures, rest) →
      Takes accepts p.kinds p.slots run captures rest
  | .token kind, [], captures, rest, h => by cases h
  | .token kind, p :: run, captures, rest, h => by
    rw [read] at h
    split at h
    · next hacc => cases h; exact .one hacc run
    · cases h
  | .optional inner, run, captures, rest, h => by
    rw [read] at h
    cases hrow : readInRow accepts inner run with
    | none => rw [hrow] at h; cases h; exact .nothing _ _ run
    | some out => rw [hrow] at h; cases h; exact takes_of_readInRow hrow
  | .choose alternatives, run, captures, rest, h => by
    rw [read] at h
    cases hfirst : readFirst accepts alternatives run with
    | none => rw [hfirst] at h; cases h
    | some out =>
      rw [hfirst] at h
      cases h
      obtain ⟨n, hle, htakes⟩ := takes_of_readFirst hfirst
      exact htakes.padTo hle

/-- A row of patterns takes the tokens in its slots, each of a kind that the patterns ask for. -/
theorem takes_of_readInRow : ∀ {patterns : List Pattern} {run : Run} {captures : Captures}
    {rest : Run}, readInRow accepts patterns run = some (captures, rest) →
      Takes accepts (kindsInRow patterns) (slotsInRow patterns) run captures rest
  | [], run, captures, rest, h => by cases h; exact .nothing _ 0 run
  | p :: patterns, run, captures, rest, h => by
    obtain ⟨first, behind, more, hp, hrow, rfl⟩ := exists_of_readInRow_cons h
    exact (takes_of_read hp).append (takes_of_readInRow hrow)

/-- An alternative takes tokens of its kinds into no more slots than the widest one has. -/
theorem takes_of_readFirst : ∀ {patterns : List Pattern} {run : Run} {captures : Captures}
    {rest : Run}, readFirst accepts patterns run = some (captures, rest) →
      ∃ n ≤ slotsOfAny patterns, Takes accepts (kindsInRow patterns) n run captures rest
  | p :: patterns, run, captures, rest, h => by
    rw [readFirst, Option.or_eq_some_iff] at h
    rcases h with h | ⟨-, h⟩
    · exact ⟨p.slots, Nat.le_max_left _ _, (takes_of_read h).mono (List.subset_append_left _ _)⟩
    · obtain ⟨n, hle, htakes⟩ := takes_of_readFirst h
      exact ⟨n, Nat.le_trans hle (Nat.le_max_right _ _),
        htakes.mono (List.subset_append_right _ _)⟩

end

/-- The slot of a token pattern holds a token that the pattern accepts. -/
theorem exists_in_slot {before after : List Pattern} {kind : Kind} {run : Run}
    {captures : Captures} {rest : Run}
    (h : readInRow accepts (before ++ .token kind :: after) run = some (captures, rest)) :
    ∃ p, captures.get? (slotsInRow before) = some p ∧ accepts kind p.token = true := by
  induction before generalizing run captures rest with
  | nil =>
    cases run with
    | nil => cases h
    | cons p run =>
      obtain ⟨first, behind, more, hfirst, -, rfl⟩ := exists_of_readInRow_cons h
      rw [read] at hfirst
      split at hfirst
      · next hp => cases hfirst; exact ⟨p, rfl, hp⟩
      · cases hfirst
  | cons q before ih =>
    obtain ⟨first, behind, more, hq, hrow, rfl⟩ := exists_of_readInRow_cons h
    obtain ⟨p, hget, hacc⟩ := ih hrow
    refine ⟨p, ?_, hacc⟩
    rw [Captures.get?, slotsInRow, ← (takes_of_read hq).length,
      List.getElem?_append_right (Nat.le_add_right _ _), Nat.add_sub_cancel_left]
    exact hget

end Pattern

/-! ## Rules and runs -/

variable {C : Type}

/-- A rule that fits takes the tokens of its filled slots. -/
theorem Rule.Fits.taken_eq {accepts : Kind → Token → Bool} {rule : Rule C} {context : C}
    {run taken rest : Run} {captures : Captures}
    (h : rule.Fits accepts context run captures taken rest) : taken = captures.filled := by
  have hfilled := (Pattern.takes_of_readInRow h.reads.eq_readInRow).filled
  rw [h.split] at hfilled
  exact (List.append_cancel_right hfilled).symm

/-- If no rule that changed the context raised a measure of it by more than the tokens that it took
are worth, the measure has risen by no more than all tokens are worth. -/
theorem Grammar.Runs.measure_le {g : Grammar C} {measure : C → Nat} {worth : Placed Token → Nat}
    {P : Placed Token → Prop} {c last : C} {run : Run} {names : List String}
    (h : g.Runs c run last names)
    (hrule : ∀ rule ∈ g.rules, rule.name ∈ names → ∀ c run captures taken rest next,
      rule.Fits g.accepts c run captures taken rest → (∀ p ∈ taken, P p) →
      rule.production c captures taken.length = some next →
      measure next ≤ measure c + (taken.map worth).sum)
    (hrun : ∀ p ∈ run, P p) : measure last ≤ measure c + (run.map worth).sum := by
  induction h with
  | done => exact Nat.le_add_right _ _
  | @changes c tokens rule captures taken rest next last names htakes hprod _ ih =>
    rw [htakes.fits.split, List.forall_mem_append] at hrun
    have hstep := hrule rule htakes.mem List.mem_cons_self _ _ _ _ _ _ htakes.fits hrun.1 hprod
    have hlater := ih (fun other hother hname => hrule other hother (List.mem_cons_of_mem _ hname))
      hrun.2
    rw [htakes.fits.split, List.map_append, List.sum_append]
    omega
  | @declines c tokens rule captures taken rest last names htakes _ _ ih =>
    rw [htakes.fits.split, List.forall_mem_append] at hrun
    have hlater := ih hrule hrun.2
    rw [htakes.fits.split, List.map_append, List.sum_append]
    omega
  | @passes c p rest last names _ _ ih =>
    have hlater := ih hrule (List.forall_mem_cons.1 hrun).2
    rw [List.map_cons, List.sum_cons]
    omega

/-! ### Pieces -/

/-- Tokens in a row that a run of a grammar goes through in one step. -/
structure Grammar.Piece where
  /-- The name of the rule that changed the context by these tokens, if one did. -/
  fired : Option String
  taken : Run

/-- How the steps of a run cut its tokens into pieces. A rule that fires takes the tokens of its
slots, from what no step before it has taken. -/
inductive Grammar.Traces (g : Grammar C) : C → List Grammar.Piece → C → Prop
  | done {c} : Traces g c [] c
  | fires {c rule captures next pieces last} : rule ∈ g.rules →
      rule.Fits g.accepts c (captures.filled ++ pieces.flatMap Piece.taken) captures captures.filled
        (pieces.flatMap Piece.taken) →
      rule.production c captures captures.filled.length = some next → Traces g next pieces last →
      Traces g c (⟨some rule.name, captures.filled⟩ :: pieces) last
  | skips {c pieces last} (taken : Run) : Traces g c pieces last →
      Traces g c (⟨none, taken⟩ :: pieces) last

/-- A run cuts its tokens into pieces, those of the rules that fired in the order of the trace. -/
theorem Grammar.Runs.exists_traces {g : Grammar C} {c last : C} {run : Run} {names : List String}
    (h : g.Runs c run last names) : ∃ pieces : List Grammar.Piece, g.Traces c pieces last ∧
      pieces.flatMap Grammar.Piece.taken = run ∧
      pieces.filterMap Grammar.Piece.fired = names := by
  induction h with
  | done => exact ⟨[], .done, rfl, rfl⟩
  | @changes c tokens rule captures taken rest next last names htakes hprod _ ih =>
    obtain ⟨pieces, htraces, rfl, rfl⟩ := ih
    have hsplit := htakes.fits.split
    have hfits := htakes.fits
    obtain rfl := hfits.taken_eq
    exact ⟨_, .fires htakes.mem (hsplit ▸ hfits) hprod htraces, hsplit.symm, rfl⟩
  | @declines c tokens rule captures taken rest last names htakes _ _ ih =>
    obtain ⟨pieces, htraces, rfl, rfl⟩ := ih
    exact ⟨_, .skips taken htraces, htakes.fits.split.symm, rfl⟩
  | @passes c p rest last names _ _ ih =>
    obtain ⟨pieces, htraces, rfl, rfl⟩ := ih
    exact ⟨_, .skips [p] htraces, rfl, rfl⟩

/-- If each production raises a measure by what the tokens in its slots are worth, a run raises it by
what the pieces of the rules that fired are worth. -/
theorem Grammar.Traces.measure_eq {g : Grammar C} {measure : C → Nat} {worth : Run → Nat}
    {c last : C} {pieces : List Grammar.Piece} (h : g.Traces c pieces last)
    (hproduction : ∀ rule ∈ g.rules, ∀ c captures used next,
      rule.production c captures used = some next →
      measure next = measure c + worth captures.filled) :
    measure last = measure c +
      ((pieces.filter (·.fired.isSome)).map fun piece => worth piece.taken).sum := by
  induction h with
  | done => rfl
  | fires hrule _ hprod _ ih =>
    have hstep := hproduction _ hrule _ _ _ _ hprod
    rw [List.filter_cons_of_pos rfl, List.map_cons, List.sum_cons, ih, hstep, Nat.add_assoc]
  | skips taken _ ih => rw [ih, List.filter_cons_of_neg (by simp)]

/-- What the productions of rules that fit keep, as long as the tokens in the slots have a property,
a run over such tokens keeps. -/
theorem Grammar.Runs.invariant_of_forall {g : Grammar C} {P : C → Prop}
    {A : Placed Token → Prop} {c last : C} {run : Run} {names : List String}
    (hproduction : ∀ rule ∈ g.rules, ∀ c captures used next, (∀ p ∈ captures.filled, A p) → P c →
      rule.production c captures used = some next → P next)
    (h : g.Runs c run last names) (hrun : ∀ p ∈ run, A p) (hfirst : P c) : P last := by
  induction h with
  | done => exact hfirst
  | changes htakes hprod _ ih =>
    rw [htakes.fits.split, List.forall_mem_append] at hrun
    exact ih hrun.2 (hproduction _ htakes.mem _ _ _ _ (htakes.fits.taken_eq ▸ hrun.1) hfirst hprod)
  | declines htakes _ _ ih =>
    rw [htakes.fits.split, List.forall_mem_append] at hrun
    exact ih hrun.2 hfirst
  | passes _ _ ih => exact ih (List.forall_mem_cons.1 hrun).2 hfirst

end SpokenOrder
