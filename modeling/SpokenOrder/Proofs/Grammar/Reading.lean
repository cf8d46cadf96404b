import Mathlib.Data.List.Basic
import SpokenOrder.Grammar.Basic

/-!
# The language of patterns

`Pattern.Reads` says by rules what reading tokens by a pattern comes to: the filled slots and the
tokens that are left, or `none`. A row of patterns reads one after another, `optional` falls back to
empty slots, and `choose` takes the first alternative that reads. `Pattern.read` computes these
outcomes, and there is only one (`Pattern.readsRow_iff`). What is read is taken from the front
(`Pattern.readInRow_suffix`), and each token pattern of a row has read a token that it accepts
(`Pattern.exists_accepted`).
-/

namespace SpokenOrder.Pattern

variable (accepts : Kind → Token → Bool)

mutual

/-- Reading by a pattern comes to an outcome. -/
inductive Reads : Pattern → Run → Option (Captures × Run) → Prop
  | accepted {kind p rest} : accepts kind p.token = true →
      Reads (.token kind) (p :: rest) (some ([some p], rest))
  | refused {kind p rest} : accepts kind p.token = false → Reads (.token kind) (p :: rest) none
  | atEnd {kind} : Reads (.token kind) [] none
  | present {inner run captures rest} : ReadsRow inner run (some (captures, rest)) →
      Reads (.optional inner) run (some (captures, rest))
  | absent {inner run} : ReadsRow inner run none →
      Reads (.optional inner) run (some (List.replicate (slotsInRow inner) none, run))
  | chosen {alternatives run captures rest} : ReadsFirst alternatives run (some (captures, rest)) →
      Reads (.choose alternatives) run
        (some (captures.padTo (slotsOfAny alternatives), rest))
  | noneFits {alternatives run} : ReadsFirst alternatives run none →
      Reads (.choose alternatives) run none

/-- Reading by patterns in a row comes to an outcome. -/
inductive ReadsRow : List Pattern → Run → Option (Captures × Run) → Prop
  | nil {run} : ReadsRow [] run (some ([], run))
  | cons {p patterns run captures rest more last} : Reads p run (some (captures, rest)) →
      ReadsRow patterns rest (some (more, last)) →
      ReadsRow (p :: patterns) run (some (captures ++ more, last))
  | fails {p patterns run} : Reads p run none → ReadsRow (p :: patterns) run none
  | failsLater {p patterns run captures rest} : Reads p run (some (captures, rest)) →
      ReadsRow patterns rest none → ReadsRow (p :: patterns) run none

/-- Reading by the first pattern that reads comes to an outcome. -/
inductive ReadsFirst : List Pattern → Run → Option (Captures × Run) → Prop
  | nil {run} : ReadsFirst [] run none
  | here {p patterns run captures rest} : Reads p run (some (captures, rest)) →
      ReadsFirst (p :: patterns) run (some (captures, rest))
  | later {p patterns run out} : Reads p run none → ReadsFirst patterns run out →
      ReadsFirst (p :: patterns) run out

end

variable {accepts}

/-! ## The outcomes are computed -/

mutual

/-- What is computed for a pattern is what the relation gives it. -/
theorem reads_read : ∀ (p : Pattern) (run : Run), Reads accepts p run (p.read accepts run)
  | .token kind, [] => .atEnd
  | .token kind, p :: rest => by
    rw [read]
    split
    · next h => exact .accepted h
    · next h => exact .refused (Bool.eq_false_iff.2 h)
  | .optional inner, run => by
    have ih := readsRow_readInRow inner run
    rw [read]
    cases h : readInRow accepts inner run with
    | none => rw [h] at ih; exact .absent ih
    | some out => rw [h] at ih; exact .present ih
  | .choose alternatives, run => by
    have ih := readsFirst_readFirst alternatives run
    rw [read]
    cases h : readFirst accepts alternatives run with
    | none => rw [h] at ih; exact .noneFits ih
    | some out => rw [h] at ih; exact .chosen ih

/-- What is computed for a row is what the relation gives it. -/
theorem readsRow_readInRow : ∀ (patterns : List Pattern) (run : Run),
    ReadsRow accepts patterns run (readInRow accepts patterns run)
  | [], run => .nil
  | p :: patterns, run => by
    have ih := reads_read p run
    rw [readInRow]
    cases h : p.read accepts run with
    | none => rw [h] at ih; exact .fails ih
    | some out =>
      rw [h] at ih
      have ih' := readsRow_readInRow patterns out.2
      cases h' : readInRow accepts patterns out.2 with
      | none => rw [h'] at ih'; simp only [h', Option.map_none]; exact .failsLater ih ih'
      | some out' => rw [h'] at ih'; simp only [h', Option.map_some]; exact .cons ih ih'

/-- What is computed for alternatives is what the relation gives them. -/
theorem readsFirst_readFirst : ∀ (patterns : List Pattern) (run : Run),
    ReadsFirst accepts patterns run (readFirst accepts patterns run)
  | [], run => .nil
  | p :: patterns, run => by
    have ih := reads_read p run
    rw [readFirst]
    cases h : p.read accepts run with
    | none => rw [h] at ih; exact .later ih (readsFirst_readFirst patterns run)
    | some out => rw [h] at ih; exact .here ih

end

mutual

/-- The outcome of reading by a pattern is the computed one. -/
theorem Reads.eq_read : ∀ {p : Pattern} {run : Run} {out : Option (Captures × Run)},
    Reads accepts p run out → p.read accepts run = out
  | .token kind, run, out, h => by
    cases h with
    | accepted h => rw [read, if_pos h]
    | refused h => rw [read, if_neg (Bool.eq_false_iff.1 h)]
    | atEnd => rfl
  | .optional inner, run, out, h => by
    cases h with
    | present h => rw [read, h.eq_readInRow, Option.getD_some]
    | absent h => rw [read, h.eq_readInRow, Option.getD_none]
  | .choose alternatives, run, out, h => by
    cases h with
    | chosen h => rw [read, h.eq_readFirst, Option.map_some]
    | noneFits h => rw [read, h.eq_readFirst, Option.map_none]

/-- The outcome of reading by patterns in a row is the computed one. -/
theorem ReadsRow.eq_readInRow : ∀ {patterns : List Pattern} {run : Run}
    {out : Option (Captures × Run)},
    ReadsRow accepts patterns run out → readInRow accepts patterns run = out
  | [], run, out, h => by
    cases h with
    | nil => rfl
  | p :: patterns, run, out, h => by
    cases h with
    | cons h h' => simp only [readInRow, h.eq_read, h'.eq_readInRow, Option.map_some]
    | fails h => simp only [readInRow, h.eq_read]
    | failsLater h h' => simp only [readInRow, h.eq_read, h'.eq_readInRow, Option.map_none]

/-- The outcome of reading by the first pattern that reads is the computed one. -/
theorem ReadsFirst.eq_readFirst : ∀ {patterns : List Pattern} {run : Run}
    {out : Option (Captures × Run)},
    ReadsFirst accepts patterns run out → readFirst accepts patterns run = out
  | [], run, out, h => by
    cases h with
    | nil => rfl
  | p :: patterns, run, out, h => by
    cases h with
    | here h => rw [readFirst, h.eq_read, Option.some_or]
    | later h h' => rw [readFirst, h.eq_read, Option.none_or, h'.eq_readFirst]

end

/-- Reading by patterns in a row has exactly one outcome. -/
theorem readsRow_iff {patterns : List Pattern} {run : Run} {out : Option (Captures × Run)} :
    ReadsRow accepts patterns run out ↔ readInRow accepts patterns run = out :=
  ⟨ReadsRow.eq_readInRow, fun h => h ▸ readsRow_readInRow patterns run⟩

/-! ## What is read -/

/-- A row reads its first pattern, and then the others from the rest of the run. -/
theorem exists_of_readInRow_cons {p : Pattern} {patterns : List Pattern} {run : Run}
    {captures : Captures} {rest : Run}
    (h : readInRow accepts (p :: patterns) run = some (captures, rest)) :
    ∃ first behind more, p.read accepts run = some (first, behind) ∧
      readInRow accepts patterns behind = some (more, rest) ∧ captures = first ++ more := by
  rw [readInRow] at h
  cases hp : p.read accepts run with
  | none => rw [hp] at h; cases h
  | some out =>
    simp only [hp] at h
    obtain ⟨out', hrow, heq⟩ := Option.map_eq_some_iff.1 h
    cases heq
    exact ⟨out.1, out.2, out'.1, rfl, hrow, rfl⟩

mutual

/-- A pattern takes tokens from the front. -/
theorem read_suffix : ∀ {p : Pattern} {run : Run} {captures : Captures} {rest : Run},
    p.read accepts run = some (captures, rest) → rest <:+ run
  | .token kind, [], captures, rest, h => by cases h
  | .token kind, p :: run, captures, rest, h => by
    rw [read] at h
    split at h
    · cases h; exact List.suffix_cons _ _
    · cases h
  | .optional inner, run, captures, rest, h => by
    rw [read] at h
    cases hrow : readInRow accepts inner run with
    | none => rw [hrow] at h; cases h; exact List.suffix_refl _
    | some out => rw [hrow] at h; cases h; exact readInRow_suffix hrow
  | .choose alternatives, run, captures, rest, h => by
    rw [read] at h
    cases hfirst : readFirst accepts alternatives run with
    | none => rw [hfirst] at h; cases h
    | some out => rw [hfirst] at h; cases h; exact readFirst_suffix hfirst

/-- Patterns in a row take tokens from the front. -/
theorem readInRow_suffix : ∀ {patterns : List Pattern} {run : Run} {captures : Captures}
    {rest : Run}, readInRow accepts patterns run = some (captures, rest) → rest <:+ run
  | [], run, captures, rest, h => by cases h; exact List.suffix_refl _
  | p :: patterns, run, captures, rest, h => by
    obtain ⟨first, behind, more, hp, hrow, -⟩ := exists_of_readInRow_cons h
    exact (readInRow_suffix hrow).trans (read_suffix hp)

/-- The first pattern that reads takes tokens from the front. -/
theorem readFirst_suffix : ∀ {patterns : List Pattern} {run : Run} {captures : Captures}
    {rest : Run}, readFirst accepts patterns run = some (captures, rest) → rest <:+ run
  | p :: patterns, run, captures, rest, h => by
    rw [readFirst, Option.or_eq_some_iff] at h
    rcases h with h | ⟨-, h⟩
    · exact read_suffix h
    · exact readFirst_suffix h

end

/-- A row of patterns that reads has read, for each token pattern in it, a token that it accepts. -/
theorem exists_accepted {patterns : List Pattern} {run : Run} {captures : Captures} {rest : Run}
    (h : readInRow accepts patterns run = some (captures, rest)) {kind : Kind}
    (hkind : .token kind ∈ patterns) : ∃ p ∈ run, accepts kind p.token = true := by
  induction patterns generalizing run captures rest with
  | nil => cases hkind
  | cons p patterns ih =>
    obtain ⟨first, behind, more, hp, hrow, -⟩ := exists_of_readInRow_cons h
    rcases List.mem_cons.1 hkind with rfl | hkind
    · -- The token pattern itself comes first, so it has read the first token.
      cases run with
      | nil => cases hp
      | cons q run =>
        rw [read] at hp
        split at hp
        · next hq => exact ⟨q, List.mem_cons_self, hq⟩
        · cases hp
    · obtain ⟨q, hq, hacc⟩ := ih hrow hkind
      exact ⟨q, (read_suffix hp).subset hq, hacc⟩

end SpokenOrder.Pattern
