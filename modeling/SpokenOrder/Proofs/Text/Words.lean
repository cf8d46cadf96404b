import Mathlib
import SpokenOrder.Text.Words

/-!
# Words of texts that are put together

Characters that are no part of a word separate words, however many of them stand in a row
(`Text.IsGap`): the words of two texts with a gap between them are those of the first, and then
those of the second (`Text.wordsOf_append_gap`). A word is the only word of itself
(`Text.wordsOf_word`), so the words of a text are not cut any further. The letters of ASCII may have
either case (`Text.wordsOf_map_toLower`).
-/

namespace SpokenOrder.Text

variable {c : Char} {cs xs ys gap : List Char}

/-! ## Cutting -/

/-- All words of some characters, with the one that they begin with. -/
def wordsIn (cs : List Char) : List (List Char) := consWord (cutWords cs).1 (cutWords cs).2

/-- The words of a text are found in its lowered characters. -/
theorem wordsOf_eq (cs : List Char) :
    wordsOf cs = (wordsIn (cs.flatMap lowered)).map String.ofList := rfl

/-- A word is put in front of the first words. -/
theorem consWord_append (stretch : List Char) (words more : List (List Char)) :
    consWord stretch (words ++ more) = consWord stretch words ++ more := by
  unfold consWord
  split <;> rfl

/-- Behind a character that is no part of a word, cutting begins anew. -/
theorem cutWords_append_cons (hc : isWordChar c = false) (xs ys : List Char) :
    cutWords (xs ++ c :: ys) = ((cutWords xs).1, (cutWords xs).2 ++ wordsIn ys) := by
  induction xs with
  | nil =>
    simp only [List.nil_append, cutWords, hc]
    rfl
  | cons x xs ih =>
    simp only [List.cons_append, cutWords, ih]
    split
    · rfl
    · rw [consWord_append]

/-- A character that is part of no word cuts a text. -/
theorem wordsIn_append_cons (hc : isWordChar c = false) (xs ys : List Char) :
    wordsIn (xs ++ c :: ys) = wordsIn xs ++ wordsIn ys := by
  rw [wordsIn, cutWords_append_cons hc, consWord_append, ← wordsIn]

/-- Characters in a row that are no part of a word. -/
theorem wordsIn_append_gap (hne : gap ≠ []) (hgap : ∀ c ∈ gap, isWordChar c = false)
    (xs ys : List Char) : wordsIn (xs ++ gap ++ ys) = wordsIn xs ++ wordsIn ys := by
  induction gap generalizing xs with
  | nil => exact absurd rfl hne
  | cons c rest ih =>
    rw [List.forall_mem_cons] at hgap
    rw [List.append_assoc, List.cons_append, wordsIn_append_cons hgap.1]
    cases rest with
    | nil => rfl
    | cons d rest =>
      have hrest := ih (List.cons_ne_nil _ _) hgap.2 []
      rw [List.nil_append] at hrest
      rw [hrest]
      rfl

/-- Word characters in a row are one word. -/
theorem wordsIn_of_forall (hne : cs ≠ []) (hcs : ∀ c ∈ cs, isWordChar c) : wordsIn cs = [cs] := by
  have hcut : cutWords cs = (cs, []) := by
    clear hne
    induction cs with
    | nil => rfl
    | cons c cs ih =>
      rw [List.forall_mem_cons] at hcs
      simp only [cutWords, ih hcs.2, hcs.1, if_true]
  simp [wordsIn, hcut, consWord, hne]

/-- Words are not empty, and consist of word characters. -/
theorem forall_mem_wordsIn (cs : List Char) :
    ∀ w ∈ wordsIn cs, w ≠ [] ∧ ∀ c ∈ w, isWordChar c := by
  have hcons : ∀ (stretch : List Char) (words : List (List Char)),
      (∀ c ∈ stretch, isWordChar c) → (∀ w ∈ words, w ≠ [] ∧ ∀ c ∈ w, isWordChar c) →
        ∀ w ∈ consWord stretch words, w ≠ [] ∧ ∀ c ∈ w, isWordChar c := by
    intro stretch words hstretch hwords
    unfold consWord
    split
    · exact hwords
    · next hne => exact List.forall_mem_cons.2 ⟨⟨by simpa using hne, hstretch⟩, hwords⟩
  suffices h : (∀ c ∈ (cutWords cs).1, isWordChar c) ∧
      ∀ w ∈ (cutWords cs).2, w ≠ [] ∧ ∀ c ∈ w, isWordChar c from hcons _ _ h.1 h.2
  induction cs with
  | nil => exact ⟨List.forall_mem_nil _, List.forall_mem_nil _⟩
  | cons c cs ih =>
    simp only [cutWords]
    split
    · next hc => exact ⟨List.forall_mem_cons.2 ⟨hc, ih.1⟩, ih.2⟩
    · exact ⟨List.forall_mem_nil _, hcons _ _ ih.1 ih.2⟩

/-! ## Lower case -/

/-- The characters of words are characters of ASCII. -/
theorem toNat_lt_of_isWordChar (h : isWordChar c) : c.toNat < 123 := by
  simp only [isWordChar, Bool.or_eq_true, Bool.and_eq_true, decide_eq_true_iff, beq_iff_eq,
    Char.isDigit, Char.le_def, UInt32.le_iff_toNat_le] at h
  rcases h with (⟨-, h⟩ | ⟨-, h⟩) | rfl
  · exact Nat.lt_succ_of_le h
  · exact Nat.lt_of_le_of_lt h (by decide)
  · decide

/-- A word character is in lower case. -/
theorem lowered_of_isWordChar (h : isWordChar c) : lowered c = [c] := by
  have hall : ∀ n < 123, isWordChar (Char.ofNat n) → lowered (Char.ofNat n) = [Char.ofNat n] := by
    decide
  have hc := hall c.toNat (toNat_lt_of_isWordChar h)
  rw [Char.ofNat_toNat] at hc
  exact hc h

/-- The case of a letter of ASCII does not matter. -/
theorem lowered_toLower (c : Char) : lowered c.toLower = lowered c := by
  by_cases h : c.isUpper
  · have hall : ∀ n < 91, 65 ≤ n → lowered (Char.ofNat n).toLower = lowered (Char.ofNat n) := by
      decide
    have hbounds : 65 ≤ c.toNat ∧ c.toNat ≤ 90 := by
      simpa [Char.isUpper, UInt32.le_iff_toNat_le] using h
    have hc := hall c.toNat (by omega) hbounds.1
    rwa [Char.ofNat_toNat] at hc
  · rw [Char.toLower_eq_of_not_isUpper h]

/-! ## Words of texts -/

/-- Characters that separate words: one or more, and nothing of them shows in a word. -/
def IsGap (gap : List Char) : Prop := gap ≠ [] ∧ ∀ c ∈ gap, ∀ d ∈ lowered c, isWordChar d = false

/-- A space is a gap. -/
theorem isGap_space : IsGap " ".toList :=
  ⟨by decide, List.forall_mem_singleton.2 (List.forall_mem_singleton.2 (by decide))⟩

/-- No character is lost when it is lowered. -/
theorem lowered_ne_nil (c : Char) : lowered c ≠ [] := by
  unfold lowered
  split
  · exact List.cons_ne_nil _ _
  split <;> exact List.cons_ne_nil _ _

/-- The words on either side of a gap are cut on their own. -/
theorem wordsOf_append_gap (hgap : IsGap gap) (xs ys : List Char) :
    wordsOf (xs ++ gap ++ ys) = wordsOf xs ++ wordsOf ys := by
  have hne : gap.flatMap lowered ≠ [] := by
    obtain ⟨c, hc⟩ := List.exists_mem_of_ne_nil _ hgap.1
    rw [Ne, List.flatMap_eq_nil_iff]
    exact fun hnil => lowered_ne_nil c (hnil c hc)
  have hlowered : ∀ d ∈ gap.flatMap lowered, isWordChar d = false := by
    intro d hd
    obtain ⟨c, hc, hd⟩ := List.mem_flatMap.1 hd
    exact hgap.2 c hc d hd
  simp only [wordsOf_eq, List.flatMap_append, wordsIn_append_gap hne hlowered, List.map_append]

/-- A word is the only word of itself. -/
theorem wordsOf_word {w : String} (h : w ∈ wordsOf cs) : wordsOf w.toList = [w] := by
  rw [wordsOf_eq] at h
  obtain ⟨stretch, hstretch, rfl⟩ := List.mem_map.1 h
  obtain ⟨hne, hword⟩ := forall_mem_wordsIn _ stretch hstretch
  have hlowered : stretch.flatMap lowered = stretch := by
    rw [List.flatMap_congr fun c hc => lowered_of_isWordChar (hword c hc), List.flatMap_singleton']
  rw [wordsOf_eq, String.toList_ofList, hlowered, wordsIn_of_forall hne hword, List.map_singleton]

/-- The letters of ASCII may have either case. -/
theorem wordsOf_map_toLower (cs : List Char) : wordsOf (cs.map Char.toLower) = wordsOf cs := by
  simp only [wordsOf_eq, List.flatMap_map, lowered_toLower]

end SpokenOrder.Text
