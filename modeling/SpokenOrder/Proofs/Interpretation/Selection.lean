import Mathlib.Data.List.Basic
import SpokenOrder.Interpretation

/-!
# Which candidate is selected

The selected candidate misses the fewest tokens, of several such candidates it took the fewest
tokens into account, and of these it is the first (`Candidate.best?_eq_some_iff`). What it
understood becomes the result, unless it understood nothing
(`Interpretation.understood_ofCandidates_iff`).
-/

namespace SpokenOrder

namespace Candidate

/-- A candidate beats another if it missed fewer tokens, or as many with fewer tokens in all. -/
theorem beats_iff {c d : Candidate} : c.beats d = true ↔
    c.missed < d.missed ∨ c.missed = d.missed ∧ c.context.tokenCount < d.context.tokenCount := by
  simp only [beats, Bool.or_eq_true, Bool.and_eq_true, decide_eq_true_eq, beq_iff_eq]

/-- The candidate at position `i` is preferred to the one at position `j`: it beats it, or neither
beats the other and it comes first. -/
def IsPreferred (i : Nat) (c : Candidate) (j : Nat) (d : Candidate) : Prop :=
  c.beats d = true ∨ ¬ d.beats c = true ∧ i < j

/-- No two candidates beat each other. -/
theorem not_beats_of_beats {c d : Candidate} (h : c.beats d = true) : ¬ d.beats c = true := by
  rw [beats_iff] at h ⊢
  omega

/-- Not to be beaten is transitive. -/
theorem not_beats_trans {c d e : Candidate} (hcd : ¬ c.beats d = true) (hde : ¬ d.beats e = true) :
    ¬ c.beats e = true := by
  rw [beats_iff] at hcd hde ⊢
  omega

/-- There is a best candidate if and only if there is a candidate. -/
theorem best?_eq_none_iff {candidates : List Candidate} :
    best? candidates = none ↔ candidates = [] := by
  cases candidates with
  | nil => exact ⟨fun _ => rfl, fun _ => rfl⟩
  | cons c rest =>
    rw [best?]
    constructor
    · intro h
      split at h
      · cases h
      · split at h <;> cases h
    · rintro ⟨⟩

/-- No candidate beats the selected one, and those before it are beaten by it. -/
theorem best?_spec {candidates : List Candidate} {i : Nat} {c : Candidate}
    (h : best? candidates = some (i, c)) :
    candidates[i]? = some c ∧ (∀ d ∈ candidates, ¬ d.beats c = true) ∧
      ∀ j d, j < i → candidates[j]? = some d → c.beats d = true := by
  induction candidates generalizing i c with
  | nil => cases h
  | cons first rest ih =>
    have hself : ¬ first.beats first = true := fun hb => not_beats_of_beats hb hb
    rw [best?] at h
    cases hrest : best? rest with
    | none =>
      rw [hrest] at h
      cases h
      rw [best?_eq_none_iff] at hrest
      subst hrest
      refine ⟨rfl, fun d hd => ?_, fun j d hj => absurd hj (Nat.not_lt_zero j)⟩
      rw [List.mem_singleton.1 hd]
      exact hself
    | some later =>
      obtain ⟨k, d⟩ := later
      obtain ⟨hget, hmin, hfirst⟩ := ih hrest
      simp only [hrest] at h
      split at h
      · next hbeats =>
        cases h
        refine ⟨hget, fun e he => ?_, fun j e hj he => ?_⟩
        · rcases List.mem_cons.1 he with rfl | he
          · exact not_beats_of_beats hbeats
          · exact hmin e he
        · cases j with
          | zero => cases he; exact hbeats
          | succ j => exact hfirst j e (Nat.lt_of_succ_lt_succ hj) he
      · next hnot =>
        cases h
        refine ⟨rfl, fun e he => ?_, fun j e hj => absurd hj (Nat.not_lt_zero j)⟩
        rcases List.mem_cons.1 he with rfl | he
        · exact hself
        · exact not_beats_trans (hmin e he) hnot

/-- The selected candidate is the first that no other beats. -/
theorem best?_eq_some_iff {candidates : List Candidate} {i : Nat} {c : Candidate} :
    best? candidates = some (i, c) ↔
      candidates[i]? = some c ∧ (∀ d ∈ candidates, ¬ d.beats c = true) ∧
        ∀ j d, j < i → candidates[j]? = some d → c.beats d = true := by
  refine ⟨best?_spec, fun ⟨hget, hmin, hfirst⟩ => ?_⟩
  cases hbest : best? candidates with
  | none =>
    rw [best?_eq_none_iff] at hbest
    rw [hbest] at hget
    cases hget
  | some other =>
    obtain ⟨j, d⟩ := other
    obtain ⟨hget', hmin', hfirst'⟩ := best?_spec hbest
    -- Of two candidates that no other beats, neither can stand before the other.
    have hij : i = j := by
      rcases Nat.lt_trichotomy i j with hlt | heq | hgt
      · exact absurd (hfirst' i c hlt hget) (hmin d (List.mem_of_getElem? hget'))
      · exact heq
      · exact absurd (hfirst j d hgt hget') (hmin' c (List.mem_of_getElem? hget))
    subst hij
    rw [hget] at hget'
    cases hget'
    rfl

end Candidate

namespace Interpretation

variable {cart : Cart} {edges : Nat} {candidates : List Candidate}

/-- The cart of the result is the cart as it was, or that of a candidate. -/
theorem ofCandidates_cart : (ofCandidates cart edges candidates).cart = cart ∨
    ∃ c ∈ candidates, (ofCandidates cart edges candidates).cart = c.context.cart := by
  unfold ofCandidates
  split
  · exact .inl rfl
  · next i c hbest =>
    split
    · exact .inl rfl
    · exact .inr ⟨c, List.mem_of_getElem? (Candidate.best?_spec hbest).1, rfl⟩

/-- The candidates of an interpretation are those that it was made of. -/
theorem ofCandidates_candidates : (ofCandidates cart edges candidates).candidates = candidates := by
  unfold ofCandidates
  split
  · rfl
  · split <;> rfl

/-- A selected candidate that understood something is the result. -/
theorem ofCandidates_of_best? {i : Nat} {c : Candidate}
    (hbest : Candidate.best? candidates = some (i, c)) (hscore : 0 < c.context.score) :
    ofCandidates cart edges candidates =
      ⟨c.context.cart, c.context.score, c.context.tokenCount, candidates, some i, edges⟩ := by
  have hne : ¬ c.context.score = 0 := Nat.ne_of_gt hscore
  simp only [ofCandidates, hbest, if_neg hne]

/-- Something is understood only if the selected candidate understood something. -/
theorem exists_best?_of_understood (h : (ofCandidates cart edges candidates).understood = true) :
    ∃ i c, Candidate.best? candidates = some (i, c) ∧ 0 < c.context.score := by
  unfold ofCandidates at h
  split at h
  · cases h
  · next i c hbest =>
    split at h
    · cases h
    · next hne => exact ⟨i, c, hbest, Nat.pos_of_ne_zero hne⟩

/-- If something is understood, the result is what the winner understood. -/
theorem winner_of_understood (h : (ofCandidates cart edges candidates).understood = true) :
    ∃ i c, (ofCandidates cart edges candidates).winner = some i ∧ candidates[i]? = some c ∧
      0 < c.context.score ∧ (ofCandidates cart edges candidates).score = c.context.score ∧
      (ofCandidates cart edges candidates).cart = c.context.cart := by
  obtain ⟨i, c, hbest, hscore⟩ := exists_best?_of_understood h
  obtain ⟨hget, -, -⟩ := Candidate.best?_spec hbest
  rw [ofCandidates_of_best? hbest hscore]
  exact ⟨i, c, rfl, hget, hscore, rfl, rfl⟩

/-- Something is understood if and only if a candidate that understood something is preferred to
each that understood nothing. -/
theorem understood_ofCandidates_iff : (ofCandidates cart edges candidates).understood = true ↔
    ∃ i c, candidates[i]? = some c ∧ 0 < c.context.score ∧
      ∀ j d, candidates[j]? = some d → d.context.score = 0 → Candidate.IsPreferred i c j d := by
  constructor
  · intro h
    obtain ⟨i, c, hbest, hscore⟩ := exists_best?_of_understood h
    obtain ⟨hget, hmin, hfirst⟩ := Candidate.best?_spec hbest
    refine ⟨i, c, hget, hscore, fun j d hd hzero => ?_⟩
    rcases Nat.lt_trichotomy i j with hlt | rfl | hgt
    · exact .inr ⟨hmin d (List.mem_of_getElem? hd), hlt⟩
    · rw [hget] at hd
      cases hd
      omega
    · exact .inl (hfirst j d hgt hd)
  · rintro ⟨i, c, hget, hscore, hpreferred⟩
    cases hbest : Candidate.best? candidates with
    | none =>
      rw [Candidate.best?_eq_none_iff.1 hbest] at hget
      cases hget
    | some selected =>
      obtain ⟨j, d⟩ := selected
      obtain ⟨hget', hmin, hfirst⟩ := Candidate.best?_spec hbest
      rcases Nat.eq_zero_or_pos d.context.score with hzero | hpos
      · -- A selected candidate that understood nothing is one that `c` is preferred to.
        rcases hpreferred j d hget' hzero with hbeats | ⟨hnot, hlt⟩
        · exact absurd hbeats (hmin c (List.mem_of_getElem? hget))
        · exact absurd (hfirst i c hlt hget) hnot
      · rw [ofCandidates_of_best? hbest hpos]
        rfl

end Interpretation

end SpokenOrder
