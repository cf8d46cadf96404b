import SpokenOrder.Proofs.Intent.Edit
import SpokenOrder.Proofs.Interpretation.Winner

/-!
# What scores nothing changes nothing

Every rule of the intent grammar that fires raises the score (`Intent.score_lt_of_production`), so a
run of the grammar scores at least one for each of them (`Intent.add_length_le_score`). A candidate
that scored nothing therefore has not edited the cart, and leaving it out loses no edit
(`Scene.score_eq_zero_iff`).
-/

namespace SpokenOrder

variable {α : Type} [Score α] {scene : Scene α}

namespace Intent

variable {c next : Context} {captures : Captures} {used : Nat}

/-- A rule that fires raises the score. -/
theorem score_lt_of_production {rule : Rule Context} (hrule : rule ∈ (grammar scene).rules)
    (h : rule.production c captures used = some next) : c.score < next.score :=
  (outcome_of_production hrule h).score_lt

/-- A run of the grammar scores one or more for each rule that fires. -/
theorem add_length_le_score (scene : Scene α) (c : Context) (run : Run) :
    c.score + ((grammar scene).process c run).2.length ≤ ((grammar scene).process c run).1.score := by
  refine ((grammar scene).runs_process c run).add_length_le ?_
  intro rule hrule c captures used next hprod
  exact score_lt_of_production hrule hprod

/-- If no rule fires, the context stays as it is. -/
theorem process_eq_of_no_rule {run : Run} (h : ((grammar scene).process c run).2 = []) :
    ((grammar scene).process c run).1 = c :=
  ((grammar scene).runs_process c run).eq_of_names_eq_nil h

/-- The score stays the same if and only if no rule fires. -/
theorem score_process_eq_iff {run : Run} :
    ((grammar scene).process c run).1.score = c.score ↔ ((grammar scene).process c run).2 = [] := by
  constructor
  · intro hscore
    have hle := add_length_le_score scene c run
    exact List.length_eq_zero_iff.1 (by omega)
  · intro hnames
    rw [process_eq_of_no_rule hnames]

end Intent

namespace Scene

/-- Each rule that fires raises the score. So a run of the grammar that starts from some cart scores
nothing if and only if no rule fires, and then its context is the one that it started from. Whichever
candidate is selected, scored or not, the result has the cart of that candidate. -/
theorem score_eq_zero_iff (scene : Scene α) (cart : Cart) :
    (∀ rule ∈ (Intent.grammar scene).rules, ∀ c captures used next,
        rule.production c captures used = some next → c.score < next.score) ∧
      (∀ run : Run,
        let result := (Intent.grammar scene).process (.ofCart cart) run
        (result.1.score = 0 ↔ result.2 = []) ∧ (result.1.score = 0 → result.1 = .ofCart cart)) ∧
      ∀ tokenizations i c,
        Candidate.best? (tokenizations.map (scene.candidate cart)) = some (i, c) →
        (scene.weigh cart tokenizations).cart = c.context.cart := by
  have hzero : ∀ run : Run,
      ((Intent.grammar scene).process (.ofCart cart) run).1.score = 0 ↔
        ((Intent.grammar scene).process (.ofCart cart) run).2 = [] :=
    fun _ => Intent.score_process_eq_iff
  refine ⟨?_, ?_, ?_⟩
  · intro rule hrule c captures used next hprod
    exact Intent.score_lt_of_production hrule hprod
  · intro run
    exact ⟨hzero run, fun hscore => Intent.process_eq_of_no_rule ((hzero run).1 hscore)⟩
  · intro tokenizations i c hbest
    rcases Nat.eq_zero_or_pos c.context.score with hscore | hscore
    · -- The selected candidate is dropped, but its cart is the one that it started from.
      obtain ⟨tokens, -, rfl⟩ :=
        List.mem_map.1 (List.mem_of_getElem? (Candidate.best?_spec hbest).1)
      rw [weigh, Interpretation.ofCandidates_of_score_eq_zero hbest hscore]
      have hsame := Intent.process_eq_of_no_rule ((hzero tokens.group).1 hscore)
      exact (congrArg Intent.Context.cart hsame).symm
    · rw [weigh, Interpretation.ofCandidates_of_best? hbest hscore]

end Scene

end SpokenOrder
