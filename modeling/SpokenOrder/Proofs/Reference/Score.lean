import SpokenOrder.Proofs.Lattice.Tokenization
import SpokenOrder.Proofs.Phrase.Score
import SpokenOrder.Proofs.Reference.Targets

/-!
# The scores of references

A reference is looked up in its own tokenizations of the words of a span, so its score is not bounded
by the tokens at hand. It is bounded by any tally that bounds the lattice (`Tally.Bounds`): if no
tokenization of a span explains more tokens than its words count, no reference to it scores more
(`Scene.score_le_of_mem_targets`, `Scene.score_le_of_mem_optionTargets`). Counting each word as one
bounds every lattice (`Tally.bounds_words`).
-/

namespace SpokenOrder

variable {α : Type} [Score α]

/-- No tokenization of a span that the tally is about explains more tokens than its words count. -/
def Tally.Bounds (T : Tally) (l : Lattice α) : Prop :=
  ∀ s, T.Proper s → ∀ run ∈ (l.restrict s fun _ => true).tilings, run.explained ≤ T.size s

/-- A tokenization has no more tokens than there are words. -/
theorem Tally.bounds_words (l : Lattice α) : Tally.words.Bounds l := by
  intro s _ run hrun
  rw [Tally.size_words]
  exact Nat.le_trans run.explained_le_length
    (Nat.le_trans (Lattice.length_le_size hrun) (l.size_restrict_le s _))

namespace Scene

variable {scene : Scene α} {T : Tally} {span : Span} {run : Run}

/-- A tokenization of a span explains no more than the span counts. -/
theorem explained_le_of_mem_tokenizationsOf (hbounds : T.Bounds scene.lattice)
    (hspan : T.Proper span) {v : Vocabulary} (h : run ∈ scene.tokenizationsOf v span) :
    run.explained ≤ T.size span := by
  refine hbounds span hspan run (Lattice.tilings_restrict_subset ?_ h)
  exact fun _ => v.wants_of_isUnknown

/-- A reference to an item scores, as it names a product. -/
theorem score_pos_of_mem_targets {cart : Cart} {target : Scored Item}
    (h : target ∈ scene.targets cart span) : 0 < target.score := by
  obtain ⟨run, -, hfind⟩ := List.mem_flatMap.1 (Ranking.mem_of_mem_ofFinds h)
  obtain ⟨segment, t, -, htarget, -, -, hscore, -⟩ := mem_findsIn_iff.1 hfind
  exact hscore ▸ Menu.score_target?_pos htarget

/-- So does a reference to an option. -/
theorem score_pos_of_mem_optionTargets {parent : Item} {option : Scored Item}
    (h : option ∈ scene.optionTargets parent span) : 0 < option.score := by
  obtain ⟨run, -, hfind⟩ := List.mem_flatMap.1 (Ranking.mem_of_mem_ofFinds h)
  obtain ⟨t, htarget, -, hscore⟩ := exists_of_mem_optionFindsIn hfind
  exact hscore ▸ Menu.score_optionTarget?_pos htarget

/-- A reference to an item scores no more than the words of the span count. -/
theorem score_le_of_mem_targets (hbounds : T.Bounds scene.lattice) (hspan : T.Proper span)
    {cart : Cart} {target : Scored Item} (h : target ∈ scene.targets cart span) :
    target.score ≤ T.size span := by
  obtain ⟨run, hrun, hfind⟩ := List.mem_flatMap.1 (Ranking.mem_of_mem_ofFinds h)
  obtain ⟨segment, t, hsegment, htarget, -, -, hscore, -⟩ := mem_findsIn_iff.1 hfind
  have hle := Menu.score_target?_le htarget
  rw [Run.words_of_segment? hsegment] at hle
  rw [hscore]
  exact Nat.le_trans hle (explained_le_of_mem_tokenizationsOf hbounds hspan hrun)

/-- A reference to an option of an item scores no more than the words of the span count. -/
theorem score_le_of_mem_optionTargets (hbounds : T.Bounds scene.lattice) (hspan : T.Proper span)
    {parent : Item} {option : Scored Item} (h : option ∈ scene.optionTargets parent span) :
    option.score ≤ T.size span := by
  obtain ⟨run, hrun, hfind⟩ := List.mem_flatMap.1 (Ranking.mem_of_mem_ofFinds h)
  obtain ⟨t, htarget, -, hscore⟩ := exists_of_mem_optionFindsIn hfind
  rw [hscore]
  exact Nat.le_trans (Menu.score_optionTarget?_le htarget)
    (explained_le_of_mem_tokenizationsOf hbounds hspan hrun)

end Scene

end SpokenOrder
