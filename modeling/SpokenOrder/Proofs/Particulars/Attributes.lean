import SpokenOrder.Proofs.Menu.Authoring
import SpokenOrder.Proofs.Menu.Selection
import SpokenOrder.Proofs.Particulars.Phrase
import SpokenOrder.Proofs.Particulars.Used

/-!
# Attributes that are accepted

Among the words around an item are attributes of its own, those that are not part of an option
(`Menu.ownAttributes`). A conjunction and a quantity at the front make no difference to them. Of
these attributes the first on each dimension of the item's matrix is accepted, and no other one
(`Particulars.firstOfEach_readLeft`, `Particulars.firstOfEach_readAround`), because a dimension is
closed once an attribute of it was read (`Particulars.Tracks`).
-/

namespace SpokenOrder

/-- The attribute that a phrase is, if it is one of the item itself. -/
def Phrase.attribute? : Phrase → Option Aid
  | .attribute aid => some aid
  | _ => none

/-! ## Attributes of the item itself -/

namespace Menu

variable (menu : Menu)

/-- The attributes among some words that are not part of an option. -/
def ownAttributes (run : Run) : List Aid := (menu.phrases run).filterMap Phrase.attribute?

/-- A word that begins no option and is no attribute can be left out. -/
theorem ownAttributes_of_phraseAt (phrase : Phrase) {p : Placed Token} {rest : Run}
    (hphrase : menu.phraseAt (p :: rest) = (phrase, 1)) (h : phrase.attribute? = none) :
    menu.ownAttributes (p :: rest) = menu.ownAttributes rest := by
  rw [ownAttributes, phrases_cons, hphrase, List.filterMap_cons_none h]
  rfl

/-- The words of an option can be left out. -/
theorem ownAttributes_of_optionAt? {run : Run} {part : Part} (h : menu.optionAt? run = some part) :
    menu.ownAttributes run = menu.ownAttributes (run.drop part.tokens) := by
  rw [ownAttributes, phrases_of_optionAt? h, List.filterMap_cons_none rfl]
  rfl

/-- What begins with the name of an option, behind a unit at most, has no number in front. -/
theorem takeNumber_of_optionName? {rest : Run}
    (h : (menu.optionName? rest.dropUnit).isSome = true) : rest.takeNumber = (none, rest) := by
  unfold Run.takeNumber
  split
  · cases h
  · rfl

/-- A number at the front is not an attribute, whatever it measures. -/
theorem ownAttributes_number (value : Nat) (span : Span) (rest : Run) :
    menu.ownAttributes (⟨.number value, span⟩ :: rest) = menu.ownAttributes rest := by
  have hnumber : menu.optionAt? (⟨.number value, span⟩ :: rest) =
      (menu.optionName? rest.dropUnit).map fun name =>
        .option name.1 name.2.1 value (rest.length + 1 - name.2.2.length) := rfl
  cases hname : menu.optionName? rest.dropUnit with
  | none =>
    rw [hname, Option.map_none] at hnumber
    exact menu.ownAttributes_of_phraseAt .other (by simp [phraseAt, hnumber]) rfl
  | some name =>
    -- The number measures an option, which is there without it, too.
    obtain ⟨pid, attributes, behind⟩ := name
    have hrest : rest.takeNumber = (none, rest) :=
      menu.takeNumber_of_optionName? (by rw [hname]; rfl)
    have hoption : menu.optionAt? rest =
        some (.option pid attributes 1 (rest.length - behind.length)) := by
      rw [optionAt?, hrest, hname]
      rfl
    obtain ⟨-, -, -, -, hpos, -⟩ := exists_words_of_optionAt? hoption
    rw [hname, Option.map_some] at hnumber
    rw [menu.ownAttributes_of_optionAt? hnumber, menu.ownAttributes_of_optionAt? hoption]
    simp only [Part.tokens] at hpos ⊢
    rw [Nat.succ_sub (by omega), List.drop_succ_cons]

/-- Neither is a vague quantity. -/
theorem ownAttributes_quantity (value : Nat) (span : Span) (rest : Run) :
    menu.ownAttributes (⟨.quantity value, span⟩ :: rest) = menu.ownAttributes rest :=
  menu.ownAttributes_of_phraseAt .other rfl rfl

/-- A conjunction says no attribute. -/
theorem ownAttributes_conjunction (span : Span) (rest : Run) :
    menu.ownAttributes (⟨.conjunction, span⟩ :: rest) = menu.ownAttributes rest :=
  menu.ownAttributes_of_phraseAt .conjunction rfl rfl

/-- To skip a conjunction is to skip no attribute. -/
theorem ownAttributes_skipConjunction (s : Particulars) (run : Run) :
    menu.ownAttributes (s.skipConjunction run).2 = menu.ownAttributes run := by
  rcases run with _ | ⟨⟨token, span⟩, rest⟩
  · rfl
  · cases token
    case conjunction => exact (menu.ownAttributes_conjunction span rest).symm
    all_goals rfl

/-- To read a quantity is to skip no attribute. -/
theorem ownAttributes_readQuantity (s : Particulars) (run : Run) :
    menu.ownAttributes (s.readQuantity run).2 = menu.ownAttributes run := by
  rcases run with _ | ⟨⟨token, span⟩, rest⟩
  · rfl
  · cases token
    case number value =>
      rw [Particulars.readQuantity, Particulars.quantityOf?]
      dsimp only
      split
      · rfl
      · exact (menu.ownAttributes_number value span rest).symm
    case quantity value =>
      rw [Particulars.readQuantity, Particulars.quantityOf?]
      dsimp only
      split
      · rfl
      · exact (menu.ownAttributes_quantity value span rest).symm
    all_goals rfl

end Menu

/-! ## The first on each dimension -/

/-- Of the attributes that were read, the first on each dimension of a matrix. -/
structure Matrix.FirstOfEach (m : Matrix) (read accepted : List Aid) : Prop where
  sublist : accepted.Sublist read
  configures : ∀ aid ∈ accepted, m.configures aid = true
  first : ∀ d ∈ m.dimensions, accepted.filter d.contains = (read.find? d.contains).toList

namespace Registry

variable {r : Registry}

/-- A registered dimension is found again by each of its attributes. -/
theorem WellFormed.dimensionOf? (hr : r.WellFormed) {d : Dimension} {aid : Aid}
    (hd : d ∈ r.dimensions) (haid : d.contains aid = true) :
    r.dimensionOf? aid = some d.id := by
  have hsome : (r.dimensions.find? (·.contains aid)).isSome = true :=
    List.find?_isSome.2 ⟨d, hd, haid⟩
  obtain ⟨e, he⟩ := Option.isSome_iff_exists.1 hsome
  obtain rfl : e = d :=
    hr.unique e (List.mem_of_find?_eq_some he) d hd aid (by simpa using List.find?_some he) haid
  rw [Registry.dimensionOf?, he, Option.map_some]

end Registry

namespace Particulars

variable {menu : Menu} {m : Matrix} {s : Particulars} {seen : List Aid}

/-- The attributes so far are the first ones that were read on each dimension, and the dimensions of
all that were read are closed. -/
structure Tracks (m : Matrix) (seen : List Aid) (s : Particulars) : Prop extends
    m.FirstOfEach seen s.attributes where
  closed : ∀ d ∈ m.dimensions, d.id ∈ s.dimensions ↔ (seen.find? d.contains).isSome = true

/-- Before anything is read, all dimensions are open. -/
theorem tracks_empty (m : Matrix) : empty.Tracks m [] where
  sublist := .slnil
  configures := nofun
  first := fun _ _ => rfl
  closed := by simp [empty]

/-- Only the attributes and their dimensions matter. -/
theorem Tracks.of_eq {next : Particulars} (h : s.Tracks m seen)
    (hattributes : next.attributes = s.attributes) (hdimensions : next.dimensions = s.dimensions) :
    next.Tracks m seen where
  sublist := hattributes ▸ h.sublist
  configures := hattributes ▸ h.configures
  first := hattributes ▸ h.first
  closed := hdimensions ▸ h.closed

/-- Skipping a conjunction reads no attribute. -/
theorem Tracks.skipConjunction (h : s.Tracks m seen) (run : Run) :
    (s.skipConjunction run).1.Tracks m seen := by
  rcases s.skipConjunction_eq_or run with heq | heq <;> rw [heq]
  · exact h
  · exact h.of_eq rfl rfl

/-- Reading a quantity reads no attribute. -/
theorem Tracks.readQuantity (h : s.Tracks m seen) (run : Run) :
    (s.readQuantity run).1.Tracks m seen := by
  rcases s.readQuantity_eq_or run with heq | ⟨p, -, value, -, heq⟩ <;> rw [heq]
  · exact h
  · exact h.of_eq rfl rfl

/-- An attribute is passed over if its dimension has one already, or is none of the matrix. -/
theorem Tracks.passOver (h : s.Tracks m seen) {aid : Aid}
    (hclosed : ∀ d ∈ m.dimensions, d.contains aid = true → d.id ∈ s.dimensions) :
    s.Tracks m (seen ++ [aid]) := by
  have hfind : ∀ d ∈ m.dimensions, (seen ++ [aid]).find? d.contains = seen.find? d.contains := by
    intro d hd
    rw [List.find?_append, List.find?_singleton]
    split
    · next haid =>
      obtain ⟨first, hfirst⟩ :=
        Option.isSome_iff_exists.1 ((h.closed d hd).1 (hclosed d hd haid))
      rw [hfirst, Option.some_or]
    · rw [Option.or_none]
  exact
    { sublist := h.sublist.trans (List.sublist_append_left seen [aid])
      configures := h.configures
      first := fun d hd => (h.first d hd).trans (congrArg _ (hfind d hd).symm)
      closed := fun d hd => (hfind d hd).symm ▸ h.closed d hd }

/-- An attribute is accepted on the dimension that has it, if that one is open, and closes it. -/
theorem Tracks.accept (h : s.Tracks m seen) {d : Dimension} {aid : Aid} (hd : d ∈ m.dimensions)
    (haid : d.contains aid = true) (hopen : d.id ∉ s.dimensions)
    (hother : ∀ e ∈ m.dimensions, e.contains aid = true ∨ e.id = d.id → e = d) {used : Nat} :
    Tracks m (seen ++ [aid]) { s with
      attributes := s.attributes ++ [aid], dimensions := s.dimensions ++ [d.id], used } := by
  have hnone : seen.find? d.contains = none := by
    rw [h.closed d hd] at hopen
    exact Option.not_isSome_iff_eq_none.1 hopen
  constructor
  case toFirstOfEach =>
    refine ⟨h.sublist.append (.refl [aid]), List.forall_mem_append.2
      ⟨h.configures, List.forall_mem_singleton.2 (List.any_eq_true.2 ⟨d, hd, haid⟩)⟩, ?_⟩
    intro e he
    rw [List.filter_append, h.first e he, List.find?_append, List.find?_singleton,
      List.filter_singleton]
    by_cases heq : e.contains aid = true
    · obtain rfl := hother e he (.inl heq)
      rw [hnone, haid]
      rfl
    · simp [heq]
  case closed =>
    intro e he
    rw [List.mem_append, List.mem_singleton, h.closed e he, List.find?_append, Option.isSome_or,
      Bool.or_eq_true, List.find?_singleton]
    refine or_congr .rfl ⟨fun heq => ?_, fun hsome => ?_⟩
    · rw [hother e he (.inr heq), haid]
      rfl
    · rw [Option.isSome_ite] at hsome
      rw [hother e he (.inl hsome)]

section

variable (hr : menu.registry.WellFormed) (hids : menu.registry.Numbered)
  (hm : m ∈ menu.registry.matrices)
include hr hids hm

/-- Step lemma: taking in a phrase keeps track of the attributes. -/
theorem Tracks.take (h : s.Tracks m seen) (phrase : Phrase) :
    (s.take menu (some m) phrase).Tracks m (seen ++ phrase.attribute?.toList) := by
  have hdimensions := hr.mem_dimensions m hm
  cases phrase with
  | conjunction | part | other =>
    exact (List.append_nil seen).symm ▸ h.of_eq rfl rfl
  | «attribute» aid =>
    rw [Phrase.attribute?, Option.toList_some]
    cases hconfigures : m.configures aid with
    | false =>
      have hnone : openDimension? menu (some m) s aid = none := by
        simp [openDimension?, hconfigures]
      simp only [Particulars.take, hnone]
      refine h.passOver fun d hd haid => ?_
      rw [Matrix.configures, List.any_eq_false] at hconfigures
      exact absurd haid (hconfigures d hd)
    | true =>
      obtain ⟨d, hd, haid⟩ := List.any_eq_true.1 hconfigures
      have hother : ∀ e ∈ m.dimensions, e.contains aid = true ∨ e.id = d.id → e = d := by
        rintro e he (heaid | heid)
        · exact hr.unique e (hdimensions e he) d (hdimensions d hd) aid heaid haid
        · exact hids e (hdimensions e he) d (hdimensions d hd) heid
      have hfound := hr.dimensionOf? (hdimensions d hd) haid
      by_cases hopen : d.id ∈ s.dimensions
      · have hnone : openDimension? menu (some m) s aid = none := by
          simp [openDimension?, hconfigures, hfound, hopen]
        simp only [Particulars.take, hnone]
        exact h.passOver fun e he heaid => hother e he (.inl heaid) ▸ hopen
      · have hsome : openDimension? menu (some m) s aid = some d.id := by
          simp [openDimension?, hconfigures, hfound, hopen]
        simp only [Particulars.take, hsome]
        exact h.accept hd haid hopen hother

/-- Run lemma: reading on keeps track of the attributes. -/
theorem Tracks.read (h : s.Tracks m seen) (run : Run) :
    (s.read menu (some m) run).Tracks m (seen ++ menu.ownAttributes run) := by
  refine read_induction menu (some m) (P := fun phrases next =>
    next.Tracks m (seen ++ phrases.filterMap Phrase.attribute?)) ?_
    (fun before next phrase h => ?_) run
  · rwa [List.filterMap_nil, List.append_nil]
  · have hlast : [phrase].filterMap Phrase.attribute? = phrase.attribute?.toList := by
      cases phrase <;> rfl
    rw [List.filterMap_append, hlast, ← List.append_assoc]
    exact h.take hr hids hm phrase

/-- What is read to the left tracks the attributes of the item itself. -/
theorem Tracks.readLeft (run : Run) :
    (empty.readLeft menu (some m) run).Tracks m (menu.ownAttributes run) := by
  have hfront := ((tracks_empty m).skipConjunction run).readQuantity (empty.skipConjunction run).2
  have hread := hfront.read hr hids hm
    ((empty.skipConjunction run).1.readQuantity (empty.skipConjunction run).2).2
  rwa [List.nil_append, menu.ownAttributes_readQuantity, menu.ownAttributes_skipConjunction]
    at hread

/-- Of the attributes to the left of an item, the first on each dimension is accepted. -/
theorem firstOfEach_readLeft (run : Run) :
    m.FirstOfEach (menu.ownAttributes run) (empty.readLeft menu (some m) run).attributes :=
  (Tracks.readLeft hr hids hm run).toFirstOfEach

/-- Of the attributes around an item, the first on each dimension is accepted. -/
theorem firstOfEach_readAround (left right : Run) :
    m.FirstOfEach (menu.ownAttributes left ++ menu.ownAttributes right)
      (readAround menu (some m) left right).attributes :=
  ((Tracks.readLeft hr hids hm left).read hr hids hm right).toFirstOfEach

end

end Particulars

end SpokenOrder
