import SpokenOrder.Particulars.Merge
import SpokenOrder.Proofs.Grammar.Captures
import SpokenOrder.Proofs.Particulars.Phrase
import SpokenOrder.Proofs.Particulars.Used

/-!
# Quantities that are read

The quantity of an item is said at the front of the words to its left, and nowhere else
(`Particulars.quantity_readLeft`, `Particulars.quantity_readAround`). A quantity comes from a number
among the words, or it is one. So where no word is the number 0, the item and the options that are
named have positive quantities (`Particulars.positive_readAround`, `Particulars.Positive.readLeft`),
and so have the candidates of a merge, if the recipes have (`Menu.quantity_pos_of_mem_candidates`).
-/

namespace SpokenOrder

/-! ## How many of an item -/

namespace Run

/-- The quantity at the front. A number in front of a unit or an option measures that instead. -/
def quantityAt? : Run → Option Nat
  | ⟨.quantity value, _⟩ :: _ => some value
  | ⟨.number _, _⟩ :: ⟨.unit _ _, _⟩ :: _ => none
  | ⟨.number _, _⟩ :: ⟨.option _ _, _⟩ :: _ => none
  | ⟨.number value, _⟩ :: _ => some value
  | _ => none

/-- The quantity that words to the left of an item say, perhaps behind a conjunction. -/
def quantity? : Run → Option Nat
  | ⟨.conjunction, _⟩ :: rest => quantityAt? rest
  | run => quantityAt? run

end Run

namespace Particulars

/-- The quantity of a run is the one behind a conjunction. -/
theorem quantityAt?_skipConjunction (s : Particulars) (run : Run) :
    Run.quantityAt? (s.skipConjunction run).2 = run.quantity? := by
  rcases run with _ | ⟨⟨token, span⟩, rest⟩
  · rfl
  · cases token <;> rfl

/-- Skipping a conjunction leaves the quantity as it is. -/
theorem quantity_skipConjunction (s : Particulars) (run : Run) :
    (s.skipConjunction run).1.quantity = s.quantity := by
  rcases s.skipConjunction_eq_or run with heq | heq <;> rw [heq]

/-- The quantity that is read replaces an earlier one. -/
theorem quantity_readQuantity (s : Particulars) (run : Run) :
    (s.readQuantity run).1.quantity = run.quantityAt?.or s.quantity := by
  rcases run with _ | ⟨⟨token, span⟩, rest⟩
  · rfl
  · cases token
    case number | quantity =>
      -- What the number measures is told by the word behind it.
      rcases rest with _ | ⟨⟨token, span'⟩, rest⟩
      · rfl
      · cases token <;> rfl
    all_goals rfl

/-- Reading phrases leaves the quantity as it is. -/
theorem quantity_read (menu : Menu) (matrix : Option Matrix) (s : Particulars) (run : Run) :
    (s.read menu matrix run).quantity = s.quantity := by
  refine read_induction menu matrix (P := fun _ next => next.quantity = s.quantity) rfl
    (fun _ next phrase h => ?_) run
  rw [← h]
  cases phrase with
  | conjunction | part | other => rfl
  | «attribute» aid =>
    rw [take]
    split <;> rfl

/-- The quantity to the left is the one at the front of the run. -/
theorem quantity_readLeft (menu : Menu) (matrix : Option Matrix) (run : Run) :
    (empty.readLeft menu matrix run).quantity = run.quantity? := by
  rw [readLeft]
  dsimp only
  rw [quantity_read, quantity_readQuantity, quantityAt?_skipConjunction, quantity_skipConjunction]
  exact Option.or_none

/-- Words to the right of an item say nothing about its quantity. -/
theorem quantity_readAround (menu : Menu) (matrix : Option Matrix) (left right : Run) :
    (readAround menu matrix left right).quantity = left.quantity? := by
  rw [readAround, quantity_read, quantity_readLeft]

end Particulars

/-! ## Positive quantities -/

/-- The token is no number 0, exact or vague. -/
def Token.Nonzero (t : Token) : Prop := Particulars.quantityOf? t ≠ some 0

instance (t : Token) : Decidable t.Nonzero := inferInstanceAs (Decidable (_ ≠ _))

/-- An option that is named comes in a positive quantity. -/
def Part.Positive : Part → Prop
  | .option _ _ quantity _ => 0 < quantity
  | .recipe .. => True

namespace Particulars

variable {menu : Menu} {matrix : Option Matrix} {s next : Particulars} {captures : Captures}

/-- All quantities that were said are positive. -/
structure Positive (s : Particulars) : Prop where
  quantity : ∀ n, s.quantity = some n → 0 < n
  parts : ∀ part ∈ s.parts, part.Positive

/-- Where nothing is read, no quantity is zero. -/
theorem positive_empty : empty.Positive where
  quantity := nofun
  parts := nofun

/-- Without a number 0, what a slot says or leaves out is a positive number. -/
theorem pos_of_numberIn? {slot : Nat} (h : ∀ p ∈ captures.filled, p.token.Nonzero) :
    0 < (numberIn? captures slot).getD 1 := by
  cases hnumber : numberIn? captures slot with
  | none => exact Nat.one_pos
  | some value =>
    obtain ⟨p, hp, hvalue⟩ := Option.bind_eq_some_iff.1 hnumber
    have hnonzero := h p (Captures.mem_filled_of_get? hp)
    rw [Option.getD_some]
    split at hvalue
    · next heq =>
      cases hvalue
      rw [Token.Nonzero, heq, quantityOf?] at hnonzero
      exact Nat.pos_of_ne_zero fun hzero => hnonzero (congrArg some hzero)
    · cases hvalue

namespace Positive

/-- A part in a positive quantity leaves all quantities positive. -/
theorem withPart (h : s.Positive) {part : Part} (hpart : part.Positive) :
    (s.withPart part).Positive where
  quantity := h.quantity
  parts := List.forall_mem_append.2 ⟨h.parts, List.forall_mem_singleton.2 hpart⟩

/-- What a rule adds is positive, if no number 0 is in its slots. -/
theorem production {rule : Rule Particulars} {used : Nat} (h : s.Positive)
    (hrule : rule ∈ (grammar menu matrix).rules) (hslots : ∀ p ∈ captures.filled, p.token.Nonzero)
    (hprod : rule.production s captures used = some next) : next.Positive := by
  simp only [grammar, Grammar.ofRules, List.mem_cons, List.not_mem_nil, or_false] at hrule
  rcases hrule with rfl | rfl | rfl | rfl | rfl
  case inl =>
    cases hprod
    exact ⟨h.quantity, h.parts⟩
  case inr.inl =>
    obtain ⟨rid, -, rfl⟩ := Option.map_eq_some_iff.1 hprod
    exact h.withPart trivial
  case inr.inr.inl =>
    unfold attributeOptionRule at hprod
    dsimp only at hprod
    split at hprod
    · cases hprod
      exact h.withPart (pos_of_numberIn? hslots)
    · cases hprod
  case inr.inr.inr.inl =>
    obtain ⟨pid, -, rfl⟩ := Option.map_eq_some_iff.1 hprod
    exact h.withPart (pos_of_numberIn? hslots)
  case inr.inr.inr.inr =>
    unfold attributeRule Rule.plain at hprod
    dsimp only at hprod
    split at hprod
    · cases hprod
    · obtain ⟨did, -, rfl⟩ := Option.map_eq_some_iff.1 hprod
      exact ⟨h.quantity, h.parts⟩

/-- Reading phrases without a number 0 leaves all quantities positive. -/
theorem read (h : s.Positive) (menu : Menu) (matrix : Option Matrix) {run : Run}
    (hrun : ∀ p ∈ run, p.token.Nonzero) : (s.read menu matrix run).Positive :=
  ((grammar menu matrix).runs_process s run).invariant_of_forall (P := Positive)
    (fun _ hrule _ _ _ _ hslots hc hprod => hc.production hrule hslots hprod) hrun h

/-- Skipping a conjunction leaves all quantities positive. -/
theorem skipConjunction (h : s.Positive) (run : Run) : (s.skipConjunction run).1.Positive := by
  rcases s.skipConjunction_eq_or run with heq | heq <;> rw [heq]
  · exact h
  · exact ⟨h.quantity, h.parts⟩

/-- Reading a quantity without a number 0 leaves all quantities positive. -/
theorem readQuantity (h : s.Positive) {run : Run} (hrun : ∀ p ∈ run, p.token.Nonzero) :
    (s.readQuantity run).1.Positive := by
  rcases s.readQuantity_eq_or run with heq | ⟨p, hp, value, hvalue, heq⟩ <;> rw [heq]
  · exact h
  · refine ⟨fun n hn => ?_, h.parts⟩
    have hnonzero := hrun p hp
    rw [Token.Nonzero, hvalue] at hnonzero
    obtain rfl : value = n := Option.some.inj hn
    exact Nat.pos_of_ne_zero fun hzero => hnonzero (congrArg some hzero)

end Positive

/-- Skipping a conjunction brings in no token. -/
theorem skipConjunction_subset (s : Particulars) (run : Run) : (s.skipConjunction run).2 ⊆ run := by
  cases run with
  | nil => exact fun _ => id
  | cons p rest =>
    rw [skipConjunction]
    split
    · exact List.subset_cons_self p rest
    · exact fun _ => id

/-- Reading a quantity brings in no token. -/
theorem readQuantity_subset (s : Particulars) (run : Run) : (s.readQuantity run).2 ⊆ run := by
  cases run with
  | nil => exact fun _ => id
  | cons p rest =>
    rw [readQuantity]
    split
    · split
      · exact fun _ => id
      · exact List.subset_cons_self p rest
    · exact fun _ => id

/-- Reading to the left without a number 0 leaves all quantities positive. -/
theorem Positive.readLeft (h : s.Positive) (menu : Menu) (matrix : Option Matrix) {run : Run}
    (hrun : ∀ p ∈ run, p.token.Nonzero) : (s.readLeft menu matrix run).Positive := by
  have hskip := s.skipConjunction_subset run
  have hquantity := (s.skipConjunction run).1.readQuantity_subset (s.skipConjunction run).2
  exact ((h.skipConjunction run).readQuantity fun p hp => hrun p (hskip hp)).read menu matrix
    fun p hp => hrun p (hskip (hquantity hp))

/-- If no word around an item is the number 0, all quantities that they say are positive. -/
theorem positive_readAround (menu : Menu) (matrix : Option Matrix) {left right : Run}
    (hleft : ∀ p ∈ left, p.token.Nonzero) (hright : ∀ p ∈ right, p.token.Nonzero) :
    (readAround menu matrix left right).Positive :=
  (positive_empty.readLeft menu matrix hleft).read menu matrix hright

end Particulars

/-- All options of the recipes come in positive quantities. -/
def Cookbook.Positive (b : Cookbook) : Prop :=
  ∀ recipe ∈ b.recipes, ∀ option ∈ recipe.options, 0 < option.quantity

/-- The options that a part stands for come in positive quantities, if those of recipes do. -/
theorem Menu.quantity_pos_of_mem_candidates {menu : Menu} (hrecipes : menu.cookbook.Positive)
    {parent : Key} {part : Part} (hpart : part.Positive) {child : Item}
    (h : child ∈ menu.candidates parent part) : 0 < child.quantity := by
  cases part with
  | option pid attributes quantity tokens =>
    simp only [candidates, Option.mem_toList, Option.map_eq_some_iff] at h
    obtain ⟨key, -, rfl⟩ := h
    exact hpart
  | recipe rid tokens =>
    rw [candidates] at h
    cases hrecipe : menu.cookbook.recipeFor? rid parent with
    | none => rw [hrecipe] at h; cases h
    | some recipe =>
      rw [hrecipe] at h
      obtain ⟨option, hoption, hchild⟩ := List.mem_filterMap.1 h
      obtain ⟨key, -, hchild⟩ := Option.bind_eq_some_iff.1 hchild
      have hmem : recipe ∈ menu.cookbook.recipes :=
        List.mem_of_find?_eq_some (Option.filter_eq_some_iff.1 hrecipe).1
      split at hchild
      · cases hchild
        exact hrecipes recipe hmem option hoption
      · cases hchild

end SpokenOrder
