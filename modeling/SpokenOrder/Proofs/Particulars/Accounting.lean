import SpokenOrder.Proofs.Particulars.Merge
import SpokenOrder.Proofs.Particulars.Used

/-!
# What the named parts account for

Each part was named by a token or more, and together the parts were named by no more tokens than
were put to use (`Particulars.Accounted`). Of these tokens a merge rejects those of the parts of which
no candidate is accepted (`Menu.rejected_add_accepted`), so what is rejected is never more than what
was put to use.
-/

namespace SpokenOrder

namespace Particulars

/-- Each part has a token, and all parts together have no more tokens than were put to use. -/
structure Accounted (s : Particulars) : Prop where
  tokens_pos : ∀ part ∈ s.parts, 0 < part.tokens
  sum_tokens_le : (s.parts.map Part.tokens).sum ≤ s.used

variable {menu : Menu} {matrix : Option Matrix} {s next : Particulars} {used : Nat}

/-- Where nothing is read, there are no parts to account for. -/
theorem accounted_empty : empty.Accounted where
  tokens_pos _ hpart := nomatch hpart
  sum_tokens_le := Nat.le_refl 0

namespace Accounted

/-- More tokens may be put to use without naming a part. -/
theorem of_parts_eq (h : s.Accounted) (hparts : next.parts = s.parts) (hle : s.used ≤ next.used) :
    next.Accounted where
  tokens_pos := hparts ▸ h.tokens_pos
  sum_tokens_le := hparts ▸ Nat.le_trans h.sum_tokens_le hle

/-- What a rule adds keeps the parts accounted for, if the rule takes a token. -/
theorem gains (h : s.Accounted) (hgains : s.Gains next used) (hused : 0 < used) :
    next.Accounted := by
  have heq := hgains.used_eq
  rcases hgains.parts with hparts | ⟨part, htokens, hparts⟩
  · exact h.of_parts_eq hparts (by omega)
  · have hsum := h.sum_tokens_le
    constructor
    · intro other hother
      rw [hparts] at hother
      rcases List.mem_append.1 hother with hother | hother
      · exact h.tokens_pos other hother
      · rw [List.mem_singleton.1 hother, htokens]
        exact hused
    · rw [hparts, List.map_append, List.sum_append, List.map_singleton, List.sum_singleton, htokens]
      omega

/-- Reading a run keeps the parts accounted for. -/
theorem read (h : s.Accounted) (menu : Menu) (matrix : Option Matrix) (run : Run) :
    (s.read menu matrix run).Accounted := by
  refine ((grammar menu matrix).runs_process s run).invariant (P := Accounted) ?_ h
  intro rule hrule c run captures taken rest next hfits hc hprod
  exact hc.gains (gains_of_production hrule hprod) (List.length_pos_iff.2 hfits.progress)

/-- Skipping a conjunction keeps the parts accounted for. -/
theorem skipConjunction (h : s.Accounted) (run : Run) : (s.skipConjunction run).1.Accounted := by
  rcases s.skipConjunction_eq_or run with heq | heq <;> rw [heq]
  · exact h
  · exact h.of_parts_eq rfl (Nat.le_succ _)

/-- Reading a quantity keeps the parts accounted for. -/
theorem readQuantity (h : s.Accounted) (run : Run) : (s.readQuantity run).1.Accounted := by
  rcases s.readQuantity_eq_or run with heq | ⟨p, -, value, -, heq⟩ <;> rw [heq]
  · exact h
  · exact h.of_parts_eq rfl (Nat.le_succ _)

/-- Reading what stands to the left keeps the parts accounted for. -/
theorem readLeft (h : s.Accounted) (menu : Menu) (matrix : Option Matrix) (run : Run) :
    (s.readLeft menu matrix run).Accounted :=
  ((h.skipConjunction run).readQuantity _).read menu matrix _

end Accounted

/-- All parts that are read around an entity are accounted for. -/
theorem accounted_readAround (menu : Menu) (matrix : Option Matrix) (left right : Run) :
    (readAround menu matrix left right).Accounted :=
  (accounted_empty.readLeft menu matrix left).read menu matrix right

end Particulars

namespace Menu

variable (menu : Menu)

/-- Offering candidates rejects nothing. That is left to the part that they stand for. -/
theorem rejected_offerChildren (parent : Key) (m : Merge) (offered : List Item) :
    (menu.offerChildren parent m offered).1.rejected = m.rejected := by
  induction offered generalizing m with
  | nil => rfl
  | cons child rest ih =>
    have hfirst : (menu.offerChild parent m child).1.rejected = m.rejected := by
      unfold offerChild
      split
      · dsimp only
        split <;> rfl
      · rfl
    rw [← hfirst]
    exact ih _

/-- A part is rejected if none of its candidates is accepted. -/
theorem rejected_offerPart (parent : Key) (m : Merge) (part : Part) :
    (menu.offerPart parent m part).rejected =
      m.rejected + if (menu.offerChildren parent m (menu.candidates parent part)).2 then 0
        else part.tokens := by
  have hsame := menu.rejected_offerChildren parent m (menu.candidates parent part)
  unfold offerPart
  dsimp only
  split
  · rw [hsame, Nat.add_zero]
  · rw [hsame]

/-- The parts of which a candidate is accepted, when they are offered in turn. -/
def acceptedFrom (parent : Key) : Merge → List Part → List Part
  | _, [] => []
  | m, part :: rest =>
    let later := acceptedFrom parent (menu.offerPart parent m part) rest
    if (menu.offerChildren parent m (menu.candidates parent part)).2 then part :: later else later

/-- The parts of which a candidate is accepted on a parent that has the given children. -/
def acceptedParts (parent : Key) (children : List Item) (parts : List Part) : List Part :=
  menu.acceptedFrom parent ⟨children, menu.composition.admission parent, 0⟩ parts

/-- The accepted parts are some of those that are offered, in their order. -/
theorem acceptedFrom_sublist (parent : Key) (m : Merge) (parts : List Part) :
    (menu.acceptedFrom parent m parts).Sublist parts := by
  induction parts generalizing m with
  | nil => exact .slnil
  | cons part rest ih =>
    rw [acceptedFrom]
    split
    · exact (ih _).cons_cons part
    · exact (ih _).cons part

/-- The accepted parts are some of the parts, in their order. -/
theorem acceptedParts_sublist (parent : Key) (children : List Item) (parts : List Part) :
    (menu.acceptedParts parent children parts).Sublist parts :=
  menu.acceptedFrom_sublist parent _ parts

/-- What is rejected are the tokens of the parts of which no candidate is accepted. -/
theorem rejected_add_accepted (parent : Key) (children : List Item) (parts : List Part) :
    (menu.mergeParts parent children parts).2 +
        ((menu.acceptedParts parent children parts).map Part.tokens).sum =
      (parts.map Part.tokens).sum := by
  suffices hfold : ∀ m : Merge, (parts.foldl (menu.offerPart parent) m).rejected +
      ((menu.acceptedFrom parent m parts).map Part.tokens).sum =
        m.rejected + (parts.map Part.tokens).sum by
    have hmerge := hfold ⟨children, menu.composition.admission parent, 0⟩
    rwa [Nat.zero_add] at hmerge
  induction parts with
  | nil => exact fun _ => rfl
  | cons part rest ih =>
    intro m
    have hoffer := menu.rejected_offerPart parent m part
    have hrest := ih (menu.offerPart parent m part)
    rw [List.foldl_cons, acceptedFrom, List.map_cons, List.sum_cons]
    split at hoffer
    · next haccepted =>
      rw [if_pos haccepted, List.map_cons, List.sum_cons]
      omega
    · next hrejected =>
      rw [if_neg hrejected]
      omega

/-- A merge rejects no more than the tokens of the parts. -/
theorem rejected_mergeParts_le (parent : Key) (children : List Item) (parts : List Part) :
    (menu.mergeParts parent children parts).2 ≤ (parts.map Part.tokens).sum :=
  Nat.le_of_add_right_le (Nat.le_of_eq (menu.rejected_add_accepted parent children parts))

end Menu

end SpokenOrder
