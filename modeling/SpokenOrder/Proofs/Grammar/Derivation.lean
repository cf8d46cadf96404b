import Mathlib.Logic.Relation
import SpokenOrder.Proofs.Grammar.Reading

/-!
# What a grammar does, rule by rule

`Grammar.Runs` describes without any bookkeeping how a grammar goes through tokens: all rules are
asked in their order at each position, the first that fits is taken, and where none fits one token
is passed over. `Grammar.process`, which leaves out rules beforehand and counts tokens that are read
already, does the same (`Grammar.runs_iff_process`). A rule that is left out asks for a kind that no
token has, so it could not fit anywhere (`Grammar.step?_active`).
-/

namespace SpokenOrder

variable {C : Type}

/-! ## Rules that fit -/

/-- A rule fits at the front of some tokens: its pattern takes at least one of them, and the guard
lets the slots through. -/
structure Rule.Fits (accepts : Kind → Token → Bool) (rule : Rule C) (context : C) (run : Run)
    (captures : Captures) (taken rest : Run) : Prop where
  reads : Pattern.ReadsRow accepts rule.pattern run (some (captures, rest))
  split : run = taken ++ rest
  progress : taken ≠ []
  admitted : rule.guard context captures = true

namespace Rule

variable {accepts : Kind → Token → Bool} {rule : Rule C} {context : C} {run : Run}

/-- A rule that fits is found to fit, with the slots and the number of tokens taken. -/
theorem Fits.fit? {captures : Captures} {taken rest : Run}
    (h : rule.Fits accepts context run captures taken rest) :
    rule.fit? accepts context run = some (captures, taken.length) := by
  have hlen : run.length - rest.length = taken.length := by
    rw [h.split, List.length_append, Nat.add_sub_cancel]
  have hpos : 0 < taken.length := List.length_pos_iff.2 h.progress
  simp only [Rule.fit?, h.reads.eq_readInRow, hlen, h.admitted, hpos, decide_true, Bool.and_self,
    if_true]

/-- A rule that is found to fit does fit. -/
theorem exists_fits {captures : Captures} {used : Nat}
    (h : rule.fit? accepts context run = some (captures, used)) :
    ∃ taken rest, rule.Fits accepts context run captures taken rest ∧ used = taken.length := by
  unfold fit? at h
  cases hread : Pattern.readInRow accepts rule.pattern run with
  | none => rw [hread] at h; cases h
  | some out =>
    obtain ⟨captures', rest⟩ := out
    simp only [hread] at h
    split at h
    · next hcond =>
      cases h
      rw [Bool.and_eq_true, decide_eq_true_iff] at hcond
      obtain ⟨taken, hsplit⟩ := Pattern.readInRow_suffix hread
      have hlen : run.length - rest.length = taken.length := by
        rw [← hsplit, List.length_append, Nat.add_sub_cancel]
      refine ⟨taken, rest, ⟨Pattern.readsRow_iff.2 hread, hsplit.symm, ?_, hcond.2⟩, hlen⟩
      rintro rfl
      rw [hlen] at hcond
      exact Nat.lt_irrefl _ hcond.1
    · cases h

/-- A rule does not fit if there is no way for it to. -/
theorem fit?_eq_none_iff : rule.fit? accepts context run = none ↔
    ∀ captures taken rest, ¬ rule.Fits accepts context run captures taken rest := by
  constructor
  · intro h captures taken rest hfits
    rw [hfits.fit?] at h
    cases h
  · intro h
    cases hfit : rule.fit? accepts context run with
    | none => rfl
    | some out =>
      obtain ⟨taken, rest, hfits, -⟩ := exists_fits hfit
      exact absurd hfits (h _ _ _)

/-- A rule does not fit where a kind that it requires is missing. -/
theorem fit?_eq_none_of_required {kind : Kind} (hkind : kind ∈ rule.required)
    (hmissing : ∀ p ∈ run, accepts kind p.token = false) :
    rule.fit? accepts context run = none := by
  rw [fit?_eq_none_iff]
  intro captures taken rest hfits
  have hpattern : Pattern.token kind ∈ rule.pattern := by
    obtain ⟨pattern, hmem, heq⟩ := List.mem_filterMap.1 hkind
    cases pattern with
    | token kind' => cases heq; exact hmem
    | optional inner | choose alternatives => cases heq
  obtain ⟨p, hp, hacc⟩ := Pattern.exists_accepted hfits.reads.eq_readInRow hpattern
  rw [hmissing p hp] at hacc
  cases hacc

end Rule

namespace Grammar

/-! ## The rule that is taken -/

/-- The rule fits, and no rule before it in the list does. -/
structure Takes (accepts : Kind → Token → Bool) (rules : List (Rule C)) (context : C) (run : Run)
    (rule : Rule C) (captures : Captures) (taken rest : Run) : Prop where
  first : ∃ before after, rules = before ++ rule :: after ∧
    ∀ other ∈ before, ∀ captures taken rest, ¬ other.Fits accepts context run captures taken rest
  fits : rule.Fits accepts context run captures taken rest

variable {accepts : Kind → Token → Bool} {rules : List (Rule C)} {context : C} {run : Run}

/-- What a rule that fits does. -/
def stepOf (rule : Rule C) (context : C) (captures : Captures) (used : Nat) : Step C :=
  match rule.production context captures used with
  | some next => ⟨next, some rule.name, used⟩
  | none => ⟨context, none, used⟩

@[simp] theorem used_stepOf (rule : Rule C) (context : C) (captures : Captures) (used : Nat) :
    (stepOf rule context captures used).used = used := by
  unfold stepOf
  split <;> rfl

/-- A step is by the first rule that fits. -/
theorem step?_eq (accepts : Kind → Token → Bool) (rules : List (Rule C)) (context : C) (run : Run) :
    step? accepts rules context run = rules.findSome? fun rule =>
      (rule.fit? accepts context run).map fun out => stepOf rule context out.1 out.2 := rfl

/-- There is no step if no rule fits. -/
theorem step?_eq_none_iff : step? accepts rules context run = none ↔
    ∀ rule ∈ rules, ∀ captures taken rest,
      ¬ rule.Fits accepts context run captures taken rest := by
  simp only [step?_eq, List.findSome?_eq_none_iff, Option.map_eq_none_iff, Rule.fit?_eq_none_iff]

/-- The rule of a step is one of the rules. -/
theorem Takes.mem {rule : Rule C} {captures : Captures} {taken rest : Run}
    (h : Takes accepts rules context run rule captures taken rest) : rule ∈ rules := by
  obtain ⟨before, after, rfl, -⟩ := h.first
  exact List.mem_append_right before List.mem_cons_self

/-- The step of the rule that is taken. -/
theorem Takes.step?_eq_some {rule : Rule C} {captures : Captures} {taken rest : Run}
    (h : Takes accepts rules context run rule captures taken rest) :
    step? accepts rules context run = some (stepOf rule context captures taken.length) := by
  obtain ⟨before, after, rfl, hbefore⟩ := h.first
  have hnone := step?_eq_none_iff.2 hbefore
  rw [step?_eq] at hnone ⊢
  rw [List.findSome?_append, hnone, Option.none_or, List.findSome?_cons, h.fits.fit?]
  rfl

/-- Where there is a step, some rule is taken. -/
theorem exists_takes {s : Step C} (h : step? accepts rules context run = some s) :
    ∃ rule captures taken rest, Takes accepts rules context run rule captures taken rest := by
  rw [step?_eq, List.findSome?_eq_some_iff] at h
  obtain ⟨before, rule, after, hrules, hfit, hbefore⟩ := h
  obtain ⟨out, hfit, -⟩ := Option.map_eq_some_iff.1 hfit
  obtain ⟨taken, rest, hfits, -⟩ := Rule.exists_fits hfit
  refine ⟨rule, out.1, taken, rest, ⟨before, after, hrules, fun other hother => ?_⟩, hfits⟩
  exact Rule.fit?_eq_none_iff.1 (Option.map_eq_none_iff.1 (hbefore other hother))

/-! ## Leaving out rules -/

/-- Rules that do not fit may be left out. -/
theorem step?_filter {keep : Rule C → Bool}
    (h : ∀ rule ∈ rules, keep rule = false → rule.fit? accepts context run = none) :
    step? accepts (rules.filter keep) context run = step? accepts rules context run := by
  simp only [step?_eq]
  induction rules with
  | nil => rfl
  | cons rule rest ih =>
    have ih := ih fun other hother => h other (List.mem_cons_of_mem _ hother)
    cases hkeep : keep rule with
    | false =>
      rw [List.filter_cons_of_neg (by simp [hkeep]), ih, List.findSome?_cons,
        h rule List.mem_cons_self hkeep, Option.map_none]
    | true => rw [List.filter_cons_of_pos hkeep, List.findSome?_cons, List.findSome?_cons, ih]

/-- On any part of the input, a grammar may leave out the rules that require a kind which the input
does not have. -/
theorem step?_active (g : Grammar C) {input : Run} (hrun : run ⊆ input) :
    step? g.accepts (g.active input) context run = step? g.accepts g.rules context run := by
  refine step?_filter fun rule _ hkeep => ?_
  obtain ⟨kind, hkind, hmissing⟩ := List.all_eq_false.1 hkeep
  refine Rule.fit?_eq_none_of_required hkind fun p hp => ?_
  rw [Bool.not_eq_true, List.any_eq_false] at hmissing
  exact Bool.eq_false_iff.2 (hmissing p (hrun hp))

/-! ## Going through the tokens -/

/-- Tokens that are read already are passed over. -/
theorem walk_eq_drop (step? : C → Run → Option (Step C)) (context : C) (pending : Nat)
    (run : Run) : walk step? context pending run = walk step? context 0 (run.drop pending) := by
  induction run generalizing pending with
  | nil => simp [walk]
  | cons p rest ih =>
    cases pending with
    | zero => rfl
    | succ n => rw [walk, ih, List.drop_succ_cons]

/-- Two ways to step that agree on all parts of some tokens lead through them in the same way. -/
theorem walk_congr {step₁ step₂ : C → Run → Option (Step C)} {input run : Run}
    (h : ∀ context part, part ⊆ input → step₁ context part = step₂ context part)
    (hrun : run ⊆ input) (context : C) (pending : Nat) :
    walk step₁ context pending run = walk step₂ context pending run := by
  induction run generalizing context pending with
  | nil => simp [walk]
  | cons p rest ih =>
    have ih := ih (List.Subset.trans (List.subset_cons_self _ _) hrun)
    cases pending with
    | succ n => rw [walk, walk, ih]
    | zero =>
      rw [walk, walk, h context _ hrun]
      cases step₂ context (p :: rest) with
      | none => exact ih context 0
      | some s => simp only [ih]

/-- The grammar goes through the tokens as if it asked all its rules. -/
theorem process_eq_walk (g : Grammar C) (context : C) (run : Run) :
    g.process context run = walk (step? g.accepts g.rules) context 0 run :=
  walk_congr (fun _ _ hpart => step?_active g hpart) (List.Subset.refl run) context 0

/-- What is to be done at the front of some tokens. Where no rule fits, one token is passed over. -/
def stepAt (accepts : Kind → Token → Bool) (rules : List (Rule C)) (context : C) (run : Run) :
    Step C := (step? accepts rules context run).getD ⟨context, none, 1⟩

/-- Each step uses a token, or passes over one. -/
theorem used_stepAt_pos (accepts : Kind → Token → Bool) (rules : List (Rule C)) (context : C)
    (run : Run) : 0 < (stepAt accepts rules context run).used := by
  unfold stepAt
  cases hstep : step? accepts rules context run with
  | none => exact Nat.one_pos
  | some s =>
    obtain ⟨rule, captures, taken, rest, htakes⟩ := exists_takes hstep
    rw [htakes.step?_eq_some] at hstep
    cases hstep
    rw [Option.getD_some, used_stepOf]
    exact List.length_pos_iff.2 htakes.fits.progress

/-- After what is done at the front, the walk goes on behind it. -/
theorem walk_eq_of_ne_nil {run : Run} (h : run ≠ []) :
    walk (step? accepts rules) context 0 run =
      let s := stepAt accepts rules context run
      let later := walk (step? accepts rules) s.context 0 (run.drop s.used)
      (later.1, s.fired.toList ++ later.2) := by
  obtain ⟨p, rest, rfl⟩ := List.exists_cons_of_ne_nil h
  have hpos := used_stepAt_pos accepts rules context (p :: rest)
  unfold stepAt at hpos ⊢
  rw [walk]
  cases hstep : step? accepts rules context (p :: rest) with
  | none => rfl
  | some s =>
    rw [hstep, Option.getD_some] at hpos
    have hdrop : (p :: rest).drop s.used = rest.drop (s.used - 1) := by
      rw [← List.drop_succ_cons (a := p) (l := rest), Nat.sub_add_cancel hpos]
    simp only [Option.getD_some, hdrop, walk_eq_drop _ _ (s.used - 1)]

/-- How a grammar goes through tokens: from a first context to a last one, with the names of the
rules that changed it. -/
inductive Runs (g : Grammar C) : C → Run → C → List String → Prop
  | done {c} : Runs g c [] c []
  | changes {c tokens rule captures taken rest next last names} :
      Takes g.accepts g.rules c tokens rule captures taken rest →
      rule.production c captures taken.length = some next →
      Runs g next rest last names → Runs g c tokens last (rule.name :: names)
  | declines {c tokens rule captures taken rest last names} :
      Takes g.accepts g.rules c tokens rule captures taken rest →
      rule.production c captures taken.length = none →
      Runs g c rest last names → Runs g c tokens last names
  | passes {c p rest last names} :
      (∀ rule ∈ g.rules, ∀ captures taken rest',
        ¬ rule.Fits g.accepts c (p :: rest) captures taken rest') →
      Runs g c rest last names → Runs g c (p :: rest) last names

/-- After the rule that is taken, the grammar goes on behind the tokens that it took. -/
theorem Takes.walk_eq {g : Grammar C} {rule : Rule C} {captures : Captures} {taken rest : Run}
    (h : Takes g.accepts g.rules context run rule captures taken rest) :
    walk (step? g.accepts g.rules) context 0 run =
      (let s := stepOf rule context captures taken.length
      let (last, names) := walk (step? g.accepts g.rules) s.context 0 rest
      (last, s.fired.toList ++ names)) := by
  have hne : run ≠ [] := by
    rw [h.fits.split]
    exact List.append_ne_nil_of_left_ne_nil h.fits.progress rest
  rw [walk_eq_of_ne_nil hne, stepAt, h.step?_eq_some]
  simp only [Option.getD_some, used_stepOf]
  rw [h.fits.split, List.drop_left]

/-- Going through the tokens with all rules follows the rules of `Runs`. -/
theorem runs_walk (g : Grammar C) : ∀ (context : C) (run : Run),
    g.Runs context run (walk (step? g.accepts g.rules) context 0 run).1
      (walk (step? g.accepts g.rules) context 0 run).2
  | _, [] => .done
  | context, p :: rest => by
    cases hstep : step? g.accepts g.rules context (p :: rest) with
    | none =>
      rw [walk, hstep]
      exact .passes (step?_eq_none_iff.1 hstep) (runs_walk g context rest)
    | some s =>
      obtain ⟨rule, captures, taken, behind, htakes⟩ := exists_takes hstep
      -- The rule has taken a token, so fewer are left.
      have hshorter : behind.length < (p :: rest).length := by
        rw [htakes.fits.split, List.length_append]
        exact Nat.lt_add_of_pos_left (List.length_pos_iff.2 htakes.fits.progress)
      rw [htakes.walk_eq]
      unfold stepOf
      cases hprod : rule.production context captures taken.length with
      | none => exact .declines htakes hprod (runs_walk g context behind)
      | some next => exact .changes htakes hprod (runs_walk g next behind)
termination_by _ run => run.length
decreasing_by
  · exact Nat.lt_succ_self rest.length
  · exact hshorter
  · exact hshorter

/-- What follows the rules of `Runs` is what going through the tokens with all rules gives. -/
theorem Runs.walk_eq {g : Grammar C} {last : C} {names : List String}
    (h : g.Runs context run last names) :
    walk (step? g.accepts g.rules) context 0 run = (last, names) := by
  induction h with
  | done => rfl
  | changes htakes hprod _ ih => simp [htakes.walk_eq, stepOf, hprod, ih]
  | declines htakes hprod _ ih => simp [htakes.walk_eq, stepOf, hprod, ih]
  | passes hnone _ ih => rw [walk, step?_eq_none_iff.2 hnone]; exact ih

/-- A run of the grammar follows the rules of `Runs`. -/
theorem runs_process (g : Grammar C) (context : C) (run : Run) :
    g.Runs context run (g.process context run).1 (g.process context run).2 :=
  process_eq_walk g context run ▸ runs_walk g context run

/-- A run is a sequence of productions: what relates the contexts before and after each of them
relates, in steps, the first context and the last. -/
theorem Runs.reflTransGen {g : Grammar C} {R : C → C → Prop} {last : C} {names : List String}
    (hproduction : ∀ rule ∈ g.rules, ∀ c captures used next,
      rule.production c captures used = some next → R c next)
    (h : g.Runs context run last names) : Relation.ReflTransGen R context last := by
  induction h with
  | done => exact .refl
  | changes htakes hprod _ ih => exact .head (hproduction _ htakes.mem _ _ _ _ hprod) ih
  | declines _ _ _ ih | passes _ _ ih => exact ih

/-- What the productions of rules that fit keep, a run keeps. -/
theorem Runs.invariant {g : Grammar C} {P : C → Prop} {last : C} {names : List String}
    (hproduction : ∀ rule ∈ g.rules, ∀ c run captures taken rest next,
      rule.Fits g.accepts c run captures taken rest → P c →
      rule.production c captures taken.length = some next → P next)
    (h : g.Runs context run last names) (hfirst : P context) : P last := by
  induction h with
  | done => exact hfirst
  | changes htakes hprod _ ih =>
    exact ih (hproduction _ htakes.mem _ _ _ _ _ _ htakes.fits hfirst hprod)
  | declines _ _ _ ih | passes _ _ ih => exact ih hfirst

/-- If each production raises a measure of the context, a run raises it by one or more for each rule
that changed the context. -/
theorem Runs.add_length_le {g : Grammar C} {measure : C → Nat} {last : C} {names : List String}
    (hproduction : ∀ rule ∈ g.rules, ∀ c captures used next,
      rule.production c captures used = some next → measure c < measure next)
    (h : g.Runs context run last names) : measure context + names.length ≤ measure last := by
  induction h with
  | done => exact Nat.le_refl _
  | changes htakes hprod _ ih =>
    have hlt := hproduction _ htakes.mem _ _ _ _ hprod
    rw [List.length_cons]
    omega
  | declines _ _ _ ih | passes _ _ ih => exact ih

/-- If no rule changed the context, it is the first one. -/
theorem Runs.eq_of_names_eq_nil {g : Grammar C} {last : C} {names : List String}
    (h : g.Runs context run last names) (hnames : names = []) : last = context := by
  induction h with
  | done => rfl
  | changes _ _ _ _ => cases hnames
  | declines _ _ _ ih | passes _ _ ih => exact ih hnames

/-- Where no rule fits anywhere, all tokens are passed over. -/
theorem runs_of_no_fit {g : Grammar C}
    (h : ∀ rule ∈ g.rules, ∀ part, part <:+ run → ∀ captures taken rest,
      ¬ rule.Fits g.accepts context part captures taken rest) : g.Runs context run context [] := by
  induction run with
  | nil => exact .done
  | cons p rest ih =>
    refine .passes (fun rule hrule => h rule hrule _ (List.suffix_refl _)) (ih ?_)
    intro rule hrule part hpart
    exact h rule hrule part (hpart.trans (List.suffix_cons p rest))

/-- The grammar does exactly what its rules say, asked one after another at each position: leaving
out rules beforehand changes neither the last context nor the names of the rules that changed it. -/
theorem runs_iff_process (g : Grammar C) (context : C) (run : Run) (last : C)
    (names : List String) :
    g.Runs context run last names ↔ g.process context run = (last, names) := by
  constructor
  · intro h
    rw [process_eq_walk]
    exact h.walk_eq
  · intro h
    have hrun := runs_process g context run
    rwa [h] at hrun

end Grammar

end SpokenOrder
