import Mathlib.Data.List.Induction
import Mathlib.Data.List.TakeWhile
import SpokenOrder.Text.Blank
import SpokenOrder.Text.Numeral

/-!
# Which texts are numerals

A numeral (`Text.Numeral`) is what printing a number writes, behind any number of zeros and perhaps
a plus sign. Reading a numeral gives back the number if it is below the bound, and no other text is
read (`Text.readNumeral?_eq_some_iff`). Blanks around a text without blanks are what `Text.trim`
takes off (`Text.Padded.trim_eq`, `Text.padded_trim`).
-/

namespace SpokenOrder.Text

variable {n bound : Nat} {c : Char} {cs before after : List Char}

/-! ## Digits -/

/-- Digits are the characters from 48 to 57. -/
theorem isDigit_iff : c.isDigit ↔ 48 ≤ c.toNat ∧ c.toNat ≤ 57 := by
  simp [Char.isDigit, UInt32.le_iff_toNat_le]

/-- A digit is written as itself. -/
theorem digitChar_of_isDigit (h : c.isDigit) : Nat.digitChar (c.toNat - '0'.toNat) = c := by
  obtain ⟨hle, hge⟩ := isDigit_iff.1 h
  apply Char.toNat_inj.1
  show (Nat.digitChar (c.toNat - 48)).toNat = c.toNat
  rw [Nat.toNat_digitChar_of_lt_ten (by omega)]
  omega

/-- A numeral consists of digits. -/
theorem isDigit_of_mem_numeral (h : c ∈ numeral n) : c.isDigit :=
  Nat.isDigit_of_mem_toDigits (by decide) (by decide) h

/-- A numeral with zeros in front consists of digits. -/
theorem isDigit_of_mem_zeros {zeros : Nat} (h : c ∈ List.replicate zeros '0' ++ numeral n) :
    c.isDigit := by
  rcases List.mem_append.1 h with h | h
  · rw [List.eq_of_mem_replicate h]
    rfl
  · exact isDigit_of_mem_numeral h

theorem numeral_ne_nil (n : Nat) : numeral n ≠ [] := Nat.toDigits_ne_nil

/-- Reading what was printed gives back the number. -/
theorem digitsValue_numeral (n : Nat) : digitsValue (numeral n) = n :=
  Nat.ofDigitChars_toDigits (by decide) (by decide)

/-- A digit at the end counts once, and the digits before it ten times. -/
theorem digitsValue_concat (cs : List Char) (c : Char) :
    digitsValue (cs ++ [c]) = 10 * digitsValue cs + (c.toNat - '0'.toNat) := by
  rw [digitsValue, List.foldl_append, List.foldl_cons, List.foldl_nil, digitsValue]

/-- Zeros in front do not count. -/
theorem digitsValue_zeros (zeros : Nat) (cs : List Char) :
    digitsValue (List.replicate zeros '0' ++ cs) = digitsValue cs := by
  induction zeros with
  | zero => rfl
  | succ zeros ih => rw [← ih]; rfl

/-- A text of digits is what printing its value writes, behind zeros. -/
theorem exists_zeros (hne : cs ≠ []) (hdigits : ∀ c ∈ cs, c.isDigit) :
    ∃ zeros, cs = List.replicate zeros '0' ++ numeral (digitsValue cs) := by
  -- The last digit is read last, so the induction is from the right.
  induction cs using List.reverseRecOn with
  | nil => exact absurd rfl hne
  | append_singleton init c ih =>
    rw [List.forall_mem_append, List.forall_mem_singleton] at hdigits
    have hchar := digitChar_of_isDigit hdigits.2
    have hlt : c.toNat - '0'.toNat < 10 := by
      have hle := (isDigit_iff.1 hdigits.2).2
      show c.toNat - 48 < 10
      omega
    have hlast : numeral (c.toNat - '0'.toNat) = [c] := by
      rw [numeral, Nat.toDigits_of_lt_base hlt, hchar]
    rw [digitsValue_concat]
    by_cases hinit : init = []
    · subst hinit
      exact ⟨0, by simpa [digitsValue] using hlast.symm⟩
    · obtain ⟨zeros, hzeros⟩ := ih hinit hdigits.1
      rcases Nat.eq_zero_or_pos (digitsValue init) with hvalue | hvalue
      · -- The digits before the last one are all zeros.
        rw [hvalue] at hzeros ⊢
        refine ⟨zeros + 1, ?_⟩
        rw [Nat.mul_zero, Nat.zero_add, hlast, List.replicate_succ', hzeros]
        rfl
      · refine ⟨zeros, ?_⟩
        rw [numeral, ← Nat.toDigits_append_toDigits (by decide) hvalue hlt, ← List.append_assoc]
        show init ++ [c] = _ ++ numeral _ ++ numeral _
        rw [← hzeros, hlast]

/-- Digits are read if and only if they are what printing a number below the bound writes, behind
zeros. -/
theorem readDigits?_eq_some_iff : readDigits? bound cs = some n ↔
    n < bound ∧ ∃ zeros, cs = List.replicate zeros '0' ++ numeral n := by
  unfold readDigits?
  constructor
  · intro h
    split at h
    · next hcond =>
      cases h
      simp only [Bool.and_eq_true, Bool.not_eq_true', List.isEmpty_eq_false_iff, List.all_eq_true,
        decide_eq_true_iff] at hcond
      exact ⟨hcond.2, exists_zeros hcond.1.1 hcond.1.2⟩
    · cases h
  · rintro ⟨hlt, zeros, rfl⟩
    have hvalue : digitsValue (List.replicate zeros '0' ++ numeral n) = n := by
      rw [digitsValue_zeros, digitsValue_numeral]
    have hdigits : (List.replicate zeros '0' ++ numeral n).all Char.isDigit :=
      List.all_eq_true.2 fun c hc => isDigit_of_mem_zeros hc
    have hne : (List.replicate zeros '0' ++ numeral n).isEmpty = false := by
      simp [numeral_ne_nil]
    rw [hvalue, hdigits, hne]
    simp [hlt]

/-! ## Numerals -/

/-- The text stands for the number: it is what printing the number writes, behind any number of
zeros and perhaps a plus sign. -/
inductive Numeral (n : Nat) : List Char → Prop
  | plain (zeros : Nat) : Numeral n (List.replicate zeros '0' ++ numeral n)
  | plus (zeros : Nat) : Numeral n ('+' :: (List.replicate zeros '0' ++ numeral n))

theorem numeral_numeral (n : Nat) : Numeral n (numeral n) := .plain 0

/-- A numeral consists of digits and perhaps a plus sign. -/
theorem Numeral.isDigit_or_eq (h : Numeral n cs) : ∀ c ∈ cs, c.isDigit ∨ c = '+' := by
  cases h with
  | plain zeros => exact fun c hc => .inl (isDigit_of_mem_zeros hc)
  | plus zeros =>
    intro c hc
    rcases List.mem_cons.1 hc with rfl | hc
    · exact .inr rfl
    · exact .inl (isDigit_of_mem_zeros hc)

/-- A text is read as a number if and only if it is a numeral of a number below the bound. -/
theorem readNumeral?_eq_some_iff : readNumeral? bound cs = some n ↔ n < bound ∧ Numeral n cs := by
  unfold readNumeral?
  split
  · next cs =>
    rw [readDigits?_eq_some_iff, and_congr_right_iff]
    intro _
    constructor
    · rintro ⟨zeros, rfl⟩
      exact .plus zeros
    · intro h
      generalize htext : '+' :: cs = text at h
      cases h with
      | plus zeros => cases htext; exact ⟨zeros, rfl⟩
      | plain zeros =>
        -- No digit is a plus sign.
        have hplus : '+' ∈ List.replicate zeros '0' ++ numeral n := htext ▸ List.mem_cons_self
        cases isDigit_of_mem_zeros hplus
  · next hplus =>
    rw [readDigits?_eq_some_iff, and_congr_right_iff]
    intro _
    constructor
    · rintro ⟨zeros, rfl⟩
      exact .plain zeros
    · intro h
      cases h with
      | plain zeros => exact ⟨zeros, rfl⟩
      | plus zeros => exact absurd rfl (hplus _)

/-! ## Blanks around a text -/

/-- The text `cs` is `text` with blanks around it, or without. -/
def Padded (text cs : List Char) : Prop :=
  ∃ before after, cs = before ++ text ++ after ∧ (∀ c ∈ before, isBlank c) ∧
    ∀ c ∈ after, isBlank c

variable {text : List Char}

/-- Blanks around a text without blanks are taken off. -/
theorem Padded.trim_eq (h : Padded text cs) (htext : ∀ c ∈ text, isBlank c = false) :
    trim cs = text := by
  obtain ⟨before, after, rfl, hbefore, hafter⟩ := h
  have hkept : ∀ {cs : List Char}, (∀ c ∈ cs, isBlank c = false) → cs.dropWhile isBlank = cs := by
    intro cs hcs
    cases cs with
    | nil => rfl
    | cons c cs => rw [List.dropWhile_cons_of_neg (by simp [hcs c List.mem_cons_self])]
  cases text with
  | nil =>
    have hblank : ∀ c ∈ before ++ [] ++ after, isBlank c := by
      rw [List.append_nil, List.forall_mem_append]
      exact ⟨hbefore, hafter⟩
    rw [trim, List.dropWhile_eq_nil_iff.2 hblank]
    rfl
  | cons c text =>
    have hfront : (before ++ c :: text ++ after).dropWhile isBlank = c :: text ++ after := by
      rw [List.append_assoc, List.dropWhile_append_of_pos hbefore, List.cons_append,
        List.dropWhile_cons_of_neg (by simp [htext c List.mem_cons_self])]
    have hblank : ∀ c ∈ after.reverse, isBlank c := fun c hc => hafter c (List.mem_reverse.1 hc)
    rw [trim, hfront, List.reverse_append, List.dropWhile_append_of_pos hblank,
      hkept fun c hc => htext c (List.mem_reverse.1 hc), List.reverse_reverse]

/-- A text is what trimming leaves of it, with the blanks around that. -/
theorem padded_trim (cs : List Char) : Padded (trim cs) cs := by
  refine ⟨cs.takeWhile isBlank,
    ((cs.dropWhile isBlank).reverse.takeWhile isBlank).reverse, ?_, ?_, ?_⟩
  · rw [trim, List.append_assoc, ← List.reverse_append, List.takeWhile_append_dropWhile,
      List.reverse_reverse, List.takeWhile_append_dropWhile]
  · exact fun c hc => List.mem_takeWhile_imp hc
  · exact fun c hc => List.mem_takeWhile_imp (List.mem_reverse.1 hc)

end SpokenOrder.Text
