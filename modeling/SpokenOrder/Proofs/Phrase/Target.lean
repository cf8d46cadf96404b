import SpokenOrder.Phrase.Target
import SpokenOrder.Proofs.Particulars.Used

/-!
# What phrases refer to

A reference to an item leaves open what its words do not say. So it fits variants of the product
that it names, and of no other (`Menu.pid?_of_target?`), and where nothing else is said, it fits
each of them, whatever its options (`Menu.exists_target?_of_isUnknown`).
-/

namespace SpokenOrder

namespace Matrix

/-- Where nothing is wanted, all positions agree. -/
theorem agrees_of_forall_none : ∀ {wanted : List (Option Nat)} {positions : List Nat},
    (∀ w ∈ wanted, w = none) → agrees wanted positions = true
  | [], [], _ | [], _ :: _, _ => rfl
  | w :: rest, [], h => by
    rw [(List.forall_mem_cons.1 h).1]
    rfl
  | w :: rest, position :: positions, h => by
    obtain ⟨rfl, hrest⟩ := List.forall_mem_cons.1 h
    rw [agrees]
    exact agrees_of_forall_none hrest

/-- Without attributes, the pattern of a product covers all its variants. -/
theorem covers_pattern_nil {m : Matrix} {key : Key} (h : key.index < m.size) :
    (m.pattern key.pid []).covers key = true := by
  have hopen : ∀ w ∈ m.selected [], w = none := by
    intro w hw
    obtain ⟨d, -, rfl⟩ := List.mem_map.1 hw
    rfl
  simp [KeyPattern.covers, pattern, h, agrees_of_forall_none hopen]

end Matrix

namespace Menu

variable {menu : Menu} {segment : Segment}

/-- How a target was read. -/
theorem target?_eq_some {t : Scored Target} (h : menu.target? segment = some t) :
    ∃ pid matrix said, segment.pid? = some pid ∧ menu.matrixFor? pid = some matrix ∧
      said = Particulars.readAround menu (some matrix) segment.left segment.right ∧
      t = ⟨⟨matrix.pattern pid said.attributes, said.options.map (·.1)⟩, 1 + said.used,
        segment.tokenCount⟩ := by
  obtain ⟨pid, hpid, h⟩ := Option.bind_eq_some_iff.1 h
  obtain ⟨pattern, hpattern, h⟩ := Option.bind_eq_some_iff.1 h
  cases h
  obtain ⟨matrix, hmatrix, rfl⟩ := Option.map_eq_some_iff.1 hpattern
  exact ⟨pid, matrix, _, hpid, hmatrix, rfl, by rw [hmatrix]⟩

/-- How a reference to an option was read: the words name one part, and it is an option. -/
theorem optionTarget?_eq_some {words : Run} {t : Scored OptionTarget}
    (h : menu.optionTarget? words = some t) :
    ∃ pid attributes quantity tokens pattern said,
      said = Particulars.empty.read menu none words ∧
      said.parts = [.option pid attributes quantity tokens] ∧
      menu.patternFor? pid attributes = some pattern ∧
      t = ⟨⟨pid, pattern⟩, said.used, words.tokenCount⟩ := by
  unfold optionTarget? at h
  dsimp only at h
  split at h
  · next pid attributes quantity tokens hparts =>
    obtain ⟨pattern, hpattern, rfl⟩ := Option.map_eq_some_iff.1 h
    exact ⟨pid, attributes, quantity, tokens, pattern, _, rfl, hparts, hpattern, rfl⟩
  · cases h

/-- A target fits variants of the product of its segment only. -/
theorem pid?_of_target? {t : Scored Target} {item : Item} (h : menu.target? segment = some t)
    (hfits : t.value.fits item = true) : segment.pid? = some item.key.pid := by
  obtain ⟨pid, matrix, said, hpid, -, -, rfl⟩ := target?_eq_some h
  simp only [Target.fits, KeyPattern.covers, Matrix.pattern, Bool.and_eq_true, beq_iff_eq] at hfits
  rw [hpid, hfits.1.1]

/-- Where nothing is said about a product but its name, the target fits all variants of it. -/
theorem exists_target?_of_isUnknown {item : Item} {matrix : Matrix}
    (hpid : segment.pid? = some item.key.pid)
    (hleft : ∀ p ∈ segment.left, p.token.isUnknown = true)
    (hright : ∀ p ∈ segment.right, p.token.isUnknown = true)
    (hmatrix : menu.matrixFor? item.key.pid = some matrix) (hindex : item.key.index < matrix.size) :
    ∃ t, menu.target? segment = some t ∧ t.value.fits item = true := by
  have hsaid : Particulars.readAround menu (some matrix) segment.left segment.right = .empty :=
    Particulars.readAround_of_isUnknown hleft hright
  refine ⟨⟨⟨matrix.pattern item.key.pid [], []⟩, 1, segment.tokenCount⟩, ?_, ?_⟩
  · simp [target?, hpid, hmatrix, hsaid, patternFor?, Particulars.empty, Particulars.options]
  · simp [Target.fits, Target.carriedBy, Matrix.covers_pattern_nil hindex]

end Menu

end SpokenOrder
