import SpokenOrder.Proofs.Particulars.Accounting
import SpokenOrder.Proofs.Particulars.Quantity

/-!
# Where the tokens go

Each token that is put to use to the left of an item joins others, or says something: a quantity, an
attribute that is accepted, or a part (`Particulars.used_readLeft`).
-/

namespace SpokenOrder

/-! ## Conjunctions -/

/-- The number of conjunctions in a run. -/
def Run.conjunctions (run : Run) : Nat := run.countP (·.token.kind == .conjunction)

namespace Run

/-- A conjunction in front counts. -/
theorem conjunctions_cons (p : Placed Token) (rest : Run) :
    conjunctions (p :: rest) =
      conjunctions rest + if p.token.kind = .conjunction then 1 else 0 := by
  simp [conjunctions, List.countP_cons]

/-- Conjunctions of two runs add up. -/
theorem conjunctions_append (xs ys : Run) :
    conjunctions (xs ++ ys) = conjunctions xs + conjunctions ys :=
  List.countP_append

/-- A run of other tokens has no conjunction. -/
theorem conjunctions_eq_zero {run : Run} (h : ∀ p ∈ run, p.token.kind ≠ .conjunction) :
    run.conjunctions = 0 :=
  List.countP_eq_zero.2 fun p hp => by simpa using h p hp

end Run

namespace Menu

variable (menu : Menu)

/-- Where no option begins, a phrase is one token, and a conjunction just if the token is one. -/
theorem phraseAt_of_optionAt?_eq_none {p : Placed Token} {rest : Run}
    (h : menu.optionAt? (p :: rest) = none) :
    (menu.phraseAt (p :: rest)).2 = 1 ∧
      ((menu.phraseAt (p :: rest)).1 = .conjunction ↔ p.token.kind = .conjunction) := by
  obtain ⟨token, span⟩ := p
  cases token <;> simp [phraseAt, h, Token.kind]

/-- No conjunction is part of a longer phrase. -/
theorem count_conjunction_phrases (run : Run) :
    (menu.phrases run).count .conjunction = run.conjunctions := by
  induction hlength : run.length using Nat.strongRecOn generalizing run with
  | ind length ih =>
  subst hlength
  rcases run with _ | ⟨p, rest⟩
  · rfl
  cases hoption : menu.optionAt? (p :: rest) with
  | none =>
    obtain ⟨hone, hphrase⟩ := menu.phraseAt_of_optionAt?_eq_none hoption
    rw [phrases_cons, hone, Nat.sub_self, List.drop_zero, List.count_cons, Run.conjunctions_cons,
      ih rest.length (Nat.lt_succ_self _) rest rfl]
    simp only [beq_iff_eq, hphrase]
  | some part =>
    have hphrases := phrases_of_optionAt? hoption
    obtain ⟨words, behind, hrun, htokens, hpos, hkinds⟩ := exists_words_of_optionAt? hoption
    have hnone : words.conjunctions = 0 := Run.conjunctions_eq_zero fun p hp hkind => by
      have hmem := hkinds p hp
      rw [hkind] at hmem
      simp at hmem
    have hlt : behind.length < (p :: rest).length := by
      rw [hrun, List.length_append]
      omega
    rw [hphrases, List.count_cons_of_ne (by simp), hrun, ← htokens, List.drop_left,
      ih behind.length hlt behind rfl, Run.conjunctions_append, hnone, Nat.zero_add]

end Menu

/-! ## Tokens that say something -/

namespace Particulars

variable (menu : Menu) (matrix : Option Matrix) {s : Particulars}

/-- The number of tokens that say what was said. -/
def tally (s : Particulars) : Nat :=
  s.quantity.toList.length + s.attributes.length + (s.parts.map Part.tokens).sum

/-- Step lemma: a token that is put to use joins others or says something. -/
theorem used_take (s : Particulars) (phrase : Phrase) :
    (s.take menu matrix phrase).used + s.tally =
      s.used + [phrase].count .conjunction + (s.take menu matrix phrase).tally := by
  cases phrase with
  | conjunction => simp [take, tally]
  | part part =>
    simp [take, withPart, tally]
    omega
  | «attribute» aid =>
    rw [take]
    split
    · simp [tally]
      omega
    · simp
  | other => simp [take]

/-- Run lemma: each token that is put to use joins others or says something. -/
theorem used_read (s : Particulars) (run : Run) :
    (s.read menu matrix run).used + s.tally =
      s.used + run.conjunctions + (s.read menu matrix run).tally := by
  rw [← menu.count_conjunction_phrases]
  refine read_induction menu matrix (P := fun phrases next =>
    next.used + s.tally = s.used + phrases.count .conjunction + next.tally) rfl
    (fun before next phrase h => ?_) run
  have hphrase := next.used_take menu matrix phrase
  rw [List.count_append]
  omega

/-- A skipped conjunction is put to use and says nothing. -/
theorem tally_skipConjunction (s : Particulars) (run : Run) :
    (s.skipConjunction run).1.tally = s.tally ∧
      (s.skipConjunction run).1.used + (s.skipConjunction run).2.conjunctions =
        s.used + run.conjunctions := by
  rcases run with _ | ⟨⟨token, span⟩, rest⟩
  · exact ⟨rfl, rfl⟩
  · cases token
    case conjunction =>
      refine ⟨rfl, ?_⟩
      simp only [skipConjunction, Token.kind, beq_self_eq_true, if_true, Run.conjunctions_cons]
      omega
    all_goals exact ⟨rfl, rfl⟩

/-- A quantity is one token, if none was said before. -/
theorem tally_readQuantity (h : s.quantity = none) (run : Run) :
    (s.readQuantity run).1.used + s.tally = s.used + (s.readQuantity run).1.tally ∧
      (s.readQuantity run).2.conjunctions = run.conjunctions := by
  rcases run with _ | ⟨p, rest⟩
  · exact ⟨rfl, rfl⟩
  · rw [readQuantity]
    split
    · next value hvalue =>
      split
      · exact ⟨rfl, rfl⟩
      · have hkind : p.token.kind ≠ .conjunction := by
          intro hkind
          cases htoken : p.token <;> rw [htoken] at hkind hvalue <;> cases hkind
          cases hvalue
        rw [Run.conjunctions_cons, if_neg hkind]
        simp only [tally, h, Option.toList_some, Option.toList_none, List.length_singleton,
          List.length_nil]
        omega
    · exact ⟨rfl, rfl⟩

/-- Each token that is put to use to the left of an item joins others or says something. -/
theorem used_readLeft (run : Run) :
    (empty.readLeft menu matrix run).used =
      run.conjunctions + (empty.readLeft menu matrix run).tally := by
  obtain ⟨htally, hused⟩ := tally_skipConjunction empty run
  have hnone : (empty.skipConjunction run).1.quantity = none :=
    quantity_skipConjunction empty run
  obtain ⟨hquantity, hconjunctions⟩ :=
    tally_readQuantity hnone (empty.skipConjunction run).2
  have hread := used_read menu matrix
    ((empty.skipConjunction run).1.readQuantity (empty.skipConjunction run).2).1
    ((empty.skipConjunction run).1.readQuantity (empty.skipConjunction run).2).2
  have hempty : empty.used = 0 ∧ empty.tally = 0 := ⟨rfl, rfl⟩
  rw [readLeft]
  dsimp only
  omega

end Particulars

end SpokenOrder
