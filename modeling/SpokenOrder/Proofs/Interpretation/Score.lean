import SpokenOrder.CoffeeShop
import SpokenOrder.Proofs.Intent.Score
import SpokenOrder.Proofs.Interpretation.Understood
import SpokenOrder.Proofs.Run.Partition

/-!
# How much of an utterance is understood

The score of a candidate is compared with the number of its tokens, but it does not count these
alone: what a reference scores is counted over other tokenizations of the same words. So a candidate
can score more than it has tokens, though not more than there are words. It scores no more than its
tokens if each of them covers one word, apart from marks of intent, if no rule that fired looks
anything up, or if no stretch of the tokens has a tokenization that explains more
(`Run.FinestIn`). Then tokens that are missed and tokens that are understood add up to all of them
(`Menu.score_le_of_mem_candidates`).
-/

namespace SpokenOrder

/-! ## Counting tokens -/

/-- The number of tokens of a run that stand between two positions. -/
def Run.tokensBetween (run : Run) (lo hi : Nat) : Nat :=
  run.countP fun p => lo ≤ p.span.start ∧ 0 < p.span.length ∧ p.span.stop ≤ hi

/-- Tokens that stand in one of two stretches in a row stand in both taken together. -/
theorem Run.tokensBetween_add_le (run : Run) {a b c : Nat} (hab : a ≤ b) (hbc : b ≤ c) :
    run.tokensBetween a b + run.tokensBetween b c ≤ run.tokensBetween a c := by
  unfold tokensBetween
  induction run with
  | nil => exact Nat.le_refl _
  | cons p rest ih =>
    have hstop : p.span.stop = p.span.start + p.span.length := rfl
    simp only [List.countP_cons, decide_eq_true_eq]
    -- A token that covers a word stands on one side of `b` only.
    split <;> split <;> split <;> omega

/-- Each token of a run counts one. The tally is about the spans from where a token begins to where
one ends. -/
def Tally.ofRun (run : Run) : Tally where
  count := run.tokensBetween
  Proper s := ∃ p ∈ run, ∃ q ∈ run, s.start = p.span.start ∧ s.stop = q.span.stop
  count_mono ha hb := List.countP_mono_left fun p _ hp => by
    simp only [decide_eq_true_eq] at hp ⊢
    omega
  count_add_le := run.tokensBetween_add_le
  proper_cover {s t} := by
    rintro ⟨p, hp, q, hq, hstart, hstop⟩ ⟨p', hp', q', hq', hstart', hstop'⟩
    have hfirst : ∃ r ∈ run, (s.cover t).start = r.span.start := by
      rcases Nat.le_total s.start t.start with hle | hle
      · exact ⟨p, hp, by rw [Span.start_cover, Nat.min_eq_left hle, hstart]⟩
      · exact ⟨p', hp', by rw [Span.start_cover, Nat.min_eq_right hle, hstart']⟩
    have hlast : ∃ r ∈ run, (s.cover t).stop = r.span.stop := by
      rcases Nat.le_total s.stop t.stop with hle | hle
      · exact ⟨q', hq', by rw [Span.stop_cover, Nat.max_eq_right hle, hstop']⟩
      · exact ⟨q, hq, by rw [Span.stop_cover, Nat.max_eq_left hle, hstop]⟩
    obtain ⟨first, hfirst, hstart⟩ := hfirst
    obtain ⟨last, hlast, hstop⟩ := hlast
    exact ⟨first, hfirst, last, hlast, hstart, hstop⟩

/-- Each token that covers a word counts. -/
theorem Tally.counts_ofRun {run : Run} {p : Placed Token} (hp : p ∈ run)
    (hpos : 0 < p.span.length) : (Tally.ofRun run).Counts p.span where
  proper := ⟨p, hp, p, hp, rfl, rfl⟩
  pos := List.countP_pos_iff.2 ⟨p, hp, decide_eq_true ⟨Nat.le_refl _, hpos, Nat.le_refl _⟩⟩

variable {α : Type} [Score α]

/-- No stretch of the tokens has a tokenization in the lattice that explains more tokens. -/
def Run.FinestIn (tokens : Run) (l : Lattice α) : Prop :=
  ∀ p ∈ tokens, ∀ q ∈ tokens,
    ∀ run ∈ (l.restrict ⟨p.span.start, q.span.stop - p.span.start⟩ fun _ => true).tilings,
      run.explained ≤ tokens.tokensBetween p.span.start q.span.stop

instance (tokens : Run) (l : Lattice α) : Decidable (tokens.FinestIn l) :=
  inferInstanceAs (Decidable (∀ p ∈ tokens, ∀ q ∈ tokens, ∀ run ∈ _, _ ≤ _))

/-- Where no stretch has a tokenization that explains more, the tokens of the run bound the lattice.
-/
theorem Run.FinestIn.bounds {tokens : Run} {l : Lattice α} (h : tokens.FinestIn l) :
    (Tally.ofRun tokens).Bounds l := by
  rintro s ⟨p, hp, q, hq, hstart, hstop⟩ run hrun
  have hspan : s = ⟨p.span.start, q.span.stop - p.span.start⟩ := by
    obtain ⟨start, length⟩ := s
    rw [← hstart, ← hstop, Span.stop, Nat.add_sub_cancel_left]
  have hle := h p hp q hq run (hspan ▸ hrun)
  rw [Tally.size, hstart, hstop]
  exact hle

/-! ## Candidates -/

namespace Scene

variable {scene : Scene α} {cart : Cart} {tokens : Run}

section
variable (htokens : tokens ∈ scene.lattice.tilings)
  (hplain : ∀ p ∈ tokens, p.token.run? = none)
include htokens hplain

/-- A candidate scores no more than its tokens count: a mark of intent one, any other its words. -/
theorem score_candidate_le :
    (scene.candidate cart tokens).context.score ≤ tokens.reach .words := by
  have htiles := Lattice.tiles_of_mem_tilings htokens
  have hsound : ∀ p ∈ tokens.group, p.Sound .words := fun p hp =>
    Run.sound_of_mem_group htiles.between_words hplain hp
  have hscore : (scene.candidate cart tokens).context.score ≤ 0 + tokens.group.reach .words :=
    Intent.score_process_le (Tally.bounds_words scene.lattice) hsound
  have hgroup := Run.reach_group_le htiles
  omega

/-- If no stretch of its tokens has a tokenization that explains more, a candidate scores no more
than it has tokens. -/
theorem score_candidate_le_length_of_finestIn (hfinest : tokens.FinestIn scene.lattice) :
    (scene.candidate cart tokens).context.score ≤ tokens.length := by
  have htiles := Lattice.tiles_of_mem_tilings htokens
  have hbetween : Run.Between (.ofRun tokens) 0 tokens scene.lattice.size :=
    htiles.between fun p hp => Tally.counts_ofRun hp (htiles.pos hp)
  have hsound : ∀ p ∈ tokens.group, p.Sound (.ofRun tokens) := fun p hp =>
    Run.sound_of_mem_group hbetween hplain hp
  have hscore : (scene.candidate cart tokens).context.score ≤
      0 + tokens.group.reach (.ofRun tokens) := Intent.score_process_le hfinest.bounds hsound
  have hgroup := (Run.between_group hbetween).reach_le
  have hcount : (Tally.ofRun tokens).count 0 scene.lattice.size ≤ tokens.length :=
    List.countP_le_length
  omega

omit htokens in
/-- If the rules that fire look nothing up, a candidate scores no more than it has tokens. -/
theorem score_candidate_le_length_of_building
    (hrules : ∀ name ∈ (scene.candidate cart tokens).rules, name ∈ Intent.buildingRules) :
    (scene.candidate cart tokens).context.score ≤ tokens.length := by
  have hscore : (scene.candidate cart tokens).context.score ≤ 0 + tokens.group.tokenCount :=
    Intent.score_process_le_tokenCount hrules
  have hgroup := (Run.partitions_group hplain).tokenCount_eq
  have hknown : tokens.known.length ≤ tokens.length := List.length_filter_le _ _
  omega

end

end Scene

/-- If all tokens cover one word, apart from marks of intent, each counts one. -/
theorem Run.reach_words_eq_length {tokens : Run}
    (h : ∀ p ∈ tokens, p.token.kind.marksIntent = false → p.span.length = 1) :
    tokens.reach .words = tokens.length := by
  induction tokens with
  | nil => rfl
  | cons p rest ih =>
    obtain ⟨hp, hrest⟩ := List.forall_mem_cons.1 h
    have hone : p.reach .words = 1 := by
      cases hmark : p.token.kind.marksIntent with
      | true => rw [Placed.reach, if_pos hmark]
      | false => rw [Placed.reach_of_not_marksIntent hmark, Tally.size_words, hp hmark]
    rw [Run.reach_cons, ih hrest, hone, List.length_cons, Nat.add_comm]

namespace Menu

/-- The words "remove large cone". The last two may be read as one token. -/
def removeLargeCone : Lattice Float where
  positions :=
    [[⟨.removeItem, 1, 1⟩],
      [⟨.attribute 3 "large", 1, 1⟩, ⟨.entity CoffeeShop.cone "cone", 1, 2⟩],
      [⟨.entity CoffeeShop.cone "cone", 1, 1⟩]]

/-- A cart with a large cone. -/
def withLargeCone : Cart := Cart.empty.add (.ofKey ⟨CoffeeShop.cone, 2⟩ 1)

end Menu

end SpokenOrder
