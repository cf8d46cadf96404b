import SpokenOrder.CoffeeShop
import SpokenOrder.Proofs.Interpretation.Selection

/-!
# When something is understood

An utterance is understood if a candidate that understood something is selected. Candidates are
weighed by the tokens that they miss, so a short tokenization that means nothing can win against a
long one that means something. A candidate that means something wins against all that mean nothing
and have as many tokens or more (`Scene.beats_of_mem_candidates`).
-/

namespace SpokenOrder

variable {α : Type} [Score α]

namespace Scene

variable {scene : Scene α} {cart : Cart} {run : Run} {d : Candidate}

/-- There is one candidate for each heaviest tokenization of the lattice. -/
theorem candidates_interpret : (scene.interpret cart).candidates =
    scene.lattice.heaviestTilings.map (scene.candidate cart) :=
  Interpretation.ofCandidates_candidates

/-- Of no tokens nothing is understood. -/
theorem score_candidate_nil : (scene.candidate cart []).context.score = 0 := rfl

/-- A candidate that understood something does not miss all of its tokens. -/
theorem missed_candidate_lt (hscore : 0 < (scene.candidate cart run).context.score) :
    (scene.candidate cart run).missed < run.length := by
  have hpos : 0 < run.length := by
    cases run with
    | nil =>
      rw [score_candidate_nil] at hscore
      exact hscore
    | cons p rest => exact Nat.succ_pos _
  have hmissed : (scene.candidate cart run).missed =
      run.length - (scene.candidate cart run).context.score := rfl
  omega

/-- A candidate that understood something beats one that understood nothing, unless that one has
fewer tokens. -/
theorem candidate_beats (hscore : 0 < (scene.candidate cart run).context.score)
    (hzero : d.context.score = 0) (hle : run.length ≤ d.tokens.length) :
    (scene.candidate cart run).beats d = true := by
  have hlt := missed_candidate_lt hscore
  have hmissed : d.missed = d.tokens.length := by rw [Candidate.missed, hzero, Nat.sub_zero]
  rw [Candidate.beats_iff]
  exact .inl (by omega)

/-- The result is understood if and only if a candidate that understood something is preferred to
each that understood nothing. -/
theorem understood_interpret_iff : (scene.interpret cart).understood = true ↔
    ∃ i c, (scene.interpret cart).candidates[i]? = some c ∧ 0 < c.context.score ∧
      ∀ j d, (scene.interpret cart).candidates[j]? = some d → d.context.score = 0 →
        Candidate.IsPreferred i c j d := by
  rw [candidates_interpret]
  exact Interpretation.understood_ofCandidates_iff

/-- If the result is understood, it is what the winner understood. -/
theorem winner_of_understood_interpret (h : (scene.interpret cart).understood = true) :
    ∃ i c, (scene.interpret cart).winner = some i ∧
      (scene.interpret cart).candidates[i]? = some c ∧ 0 < c.context.score ∧
      (scene.interpret cart).score = c.context.score ∧
      (scene.interpret cart).cart = c.context.cart := by
  rw [candidates_interpret]
  exact Interpretation.winner_of_understood h

/-- Among the candidates of an utterance, too, one that understood something beats one that
understood nothing, unless that one has fewer tokens. -/
theorem beats_of_mem_candidates {c : Candidate} (hc : c ∈ (scene.interpret cart).candidates)
    (hscore : 0 < c.context.score) (hzero : d.context.score = 0)
    (hle : c.tokens.length ≤ d.tokens.length) : c.beats d = true := by
  rw [candidates_interpret] at hc
  obtain ⟨run, -, rfl⟩ := List.mem_map.1 hc
  exact candidate_beats hscore hzero hle

end Scene

namespace Menu

/-- The result of an utterance is understood if and only if a candidate that understood something is
preferred to each that understood nothing. The winner then understood something, and the result is
what it understood. This is so whenever some candidate that understood something has no more tokens
than any that understood nothing: only with fewer tokens can such a candidate beat it. -/
theorem understood_interpretLattice (menu : Menu) (lattice : Lattice α) (threshold : α)
    (cart : Cart) :
    let result := menu.interpretLattice lattice threshold cart
    (result.understood = true ↔
      ∃ i c, result.candidates[i]? = some c ∧ 0 < c.context.score ∧
        ∀ j d, result.candidates[j]? = some d → d.context.score = 0 →
          Candidate.IsPreferred i c j d) ∧
      (result.understood = true →
        ∃ i c, result.winner = some i ∧ result.candidates[i]? = some c ∧ 0 < c.context.score ∧
          result.score = c.context.score ∧ result.cart = c.context.cart) ∧
      (∀ c ∈ result.candidates, 0 < c.context.score →
        (∀ d ∈ result.candidates, d.context.score = 0 → c.tokens.length ≤ d.tokens.length) →
        result.understood = true) ∧
      ∀ c ∈ result.candidates, ∀ d ∈ result.candidates, 0 < c.context.score →
        d.context.score = 0 → d.beats c = true → d.tokens.length < c.tokens.length := by
  intro result
  refine ⟨Scene.understood_interpret_iff, Scene.winner_of_understood_interpret,
    fun c hc hscore hshort => ?_, fun c hc d _ hscore hzero hd => ?_⟩
  · obtain ⟨i, hi⟩ := List.getElem?_of_mem hc
    refine Scene.understood_interpret_iff.2 ⟨i, c, hi, hscore, fun j d hd hzero => .inl ?_⟩
    have hle := hshort d (List.mem_of_getElem? hd) hzero
    exact Scene.beats_of_mem_candidates hc hscore hzero hle
  · by_contra hnot
    have hcd := Scene.beats_of_mem_candidates hc hscore hzero (Nat.not_lt.1 hnot)
    exact Candidate.not_beats_of_beats hcd hd

/-- Three words that are one prologue, or a cone and two prologues. -/
def coneOrPrologue : Lattice Float where
  positions :=
    [[⟨.prologue, 1, 3⟩, ⟨.entity CoffeeShop.cone "cone", 1, 1⟩], [⟨.prologue, 1, 1⟩],
      [⟨.prologue, 1, 1⟩]]

/-- A candidate that understood something does not suffice: the prologue over three words misses one
token and the cone with two prologues misses two, so the prologue is selected and nothing is
understood. -/
theorem cone_lost_to_prologue :
    let result := CoffeeShop.menu.interpretLattice coneOrPrologue defaultThreshold Cart.empty
    (∃ c ∈ result.candidates, 0 < c.context.score) ∧
      result.winner = none ∧ result.score = 0 ∧ result.understood = false := by
  decide +kernel

end Menu

end SpokenOrder
