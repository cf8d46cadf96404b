import Mathlib.Algebra.Ring.Nat
import SpokenOrder.Menu.KeyMatcher
import SpokenOrder.Proofs.Text.Numeral

/-!
# Which expressions are read

An expression is a set of parents as it is written (`KeyMatcher.Written`): a star, a numeral, or two
numerals with a colon between them. Reading takes the blanks around an expression off and accepts
just the written ones; in particular it reads the decimal number of a generic item and the text of a
key (`KeyMatcher.parse_written`).
-/

namespace SpokenOrder.KeyMatcher

open Text (Numeral Padded)

variable {m : KeyMatcher} {cs : List Char}

/-- The expression is one for the set of parents. Numbers of generic items have 32 bits, indices of
variants have 64. -/
inductive Written : KeyMatcher → List Char → Prop
  | any : Written any ['*']
  | generic {pid : Pid} {cs : List Char} : pid < 2 ^ 32 → Numeral pid cs → Written (generic pid) cs
  | exact {key : Key} {pid index : List Char} : key.pid < 2 ^ 32 → key.index < 2 ^ 64 →
      Numeral key.pid pid → Numeral key.index index → Written (exact key) (pid ++ ':' :: index)

/-! ## Characters of expressions -/

/-- Digits and signs are no blanks. -/
theorem isBlank_eq_false_of_isDigit {c : Char} (h : c.isDigit ∨ c = '+') :
    Text.isBlank c = false := by
  rcases h with h | rfl
  · obtain ⟨hle, hge⟩ := Text.isDigit_iff.1 h
    simp only [Text.isBlank, Bool.or_eq_false_iff, Bool.and_eq_false_iff, decide_eq_false_iff_not,
      beq_eq_false_iff_ne]
    omega
  · decide

/-- Digits and signs are no colons. -/
theorem ne_colon_of_isDigit {c : Char} (h : c.isDigit ∨ c = '+') : c ≠ ':' := by
  rintro rfl
  revert h
  decide

/-- There are no blanks in an expression. -/
theorem Written.isBlank_eq_false (h : m.Written cs) : ∀ c ∈ cs, Text.isBlank c = false := by
  cases h with
  | any => exact List.forall_mem_singleton.2 (by decide)
  | generic _ hpid => exact fun c hc => isBlank_eq_false_of_isDigit (hpid.isDigit_or_eq c hc)
  | exact _ _ hpid hindex =>
    intro c hc
    rcases List.mem_append.1 hc with hc | hc
    · exact isBlank_eq_false_of_isDigit (hpid.isDigit_or_eq c hc)
    · rcases List.mem_cons.1 hc with rfl | hc
      · decide
      · exact isBlank_eq_false_of_isDigit (hindex.isDigit_or_eq c hc)

/-! ## Reading -/

/-- Without blanks around it, an expression is read, and no other text is. -/
theorem ofTrimmed?_eq_some_iff : ofTrimmed? cs = some m ↔ m.Written cs := by
  constructor
  · intro h
    unfold ofTrimmed? at h
    split at h
    · next hstar => cases h; exact hstar ▸ .any
    split at h
    · obtain ⟨pid, hpid, rfl⟩ := Option.map_eq_some_iff.1 h
      obtain ⟨hlt, hnumeral⟩ := Text.readNumeral?_eq_some_iff.1 hpid
      exact .generic hlt hnumeral
    · next colon behind hdrop =>
      split at h
      · next pid index hpid hindex =>
        cases h
        obtain ⟨hpidLt, hpidNumeral⟩ := Text.readNumeral?_eq_some_iff.1 hpid
        obtain ⟨hindexLt, hindexNumeral⟩ := Text.readNumeral?_eq_some_iff.1 hindex
        obtain rfl : colon = ':' := by
          have hhead := List.head?_dropWhile_not (· != ':') cs
          rw [hdrop] at hhead
          simpa using hhead
        rw [← List.takeWhile_append_dropWhile (p := (· != ':')) (l := cs), hdrop]
        exact .exact hpidLt hindexLt hpidNumeral hindexNumeral
      · cases h
  · intro h
    cases h with
    | any => rfl
    | generic hlt hnumeral =>
      have hstar : cs ≠ ['*'] := by
        rintro rfl
        exact absurd (hnumeral.isDigit_or_eq '*' List.mem_cons_self) (by decide)
      have hdrop : cs.dropWhile (· != ':') = [] := by
        rw [List.dropWhile_eq_nil_iff]
        exact fun c hc => bne_iff_ne.2 (ne_colon_of_isDigit (hnumeral.isDigit_or_eq c hc))
      rw [ofTrimmed?, if_neg hstar, hdrop]
      exact Option.map_eq_some_iff.2 ⟨_, Text.readNumeral?_eq_some_iff.2 ⟨hlt, hnumeral⟩, rfl⟩
    | @exact key pid index hpidLt hindexLt hpid hindex =>
      have hstar : pid ++ ':' :: index ≠ ['*'] := by
        intro heq
        have hmem : ':' ∈ ['*'] := heq ▸ List.mem_append_right pid List.mem_cons_self
        exact absurd hmem (by decide)
      have hbefore : ∀ c ∈ pid, (c != ':') = true := fun c hc =>
        bne_iff_ne.2 (ne_colon_of_isDigit (hpid.isDigit_or_eq c hc))
      have hdrop : (pid ++ ':' :: index).dropWhile (· != ':') = ':' :: index := by
        rw [List.dropWhile_append_of_pos hbefore]
        rfl
      have htake : (pid ++ ':' :: index).takeWhile (· != ':') = pid := by
        rw [List.takeWhile_append_of_pos hbefore, List.takeWhile_cons_of_neg (by decide),
          List.append_nil]
      have hpidRead : Text.readNumeral? pidBound pid = some key.pid :=
        Text.readNumeral?_eq_some_iff.2 ⟨hpidLt, hpid⟩
      have hindexRead : Text.readNumeral? indexBound index = some key.index :=
        Text.readNumeral?_eq_some_iff.2 ⟨hindexLt, hindex⟩
      rw [ofTrimmed?, if_neg hstar, hdrop, htake]
      simp only [hpidRead, hindexRead]

/-- With blanks around it, an expression is read, and no other text is. -/
theorem parse_eq_ok_iff {s : String} :
    parse s = .ok m ↔ ∃ cs, m.Written cs ∧ Padded cs s.toList := by
  unfold parse
  constructor
  · intro h
    split at h
    · next m' hread =>
      cases h
      exact ⟨_, ofTrimmed?_eq_some_iff.1 hread, Text.padded_trim _⟩
    · cases h
  · rintro ⟨cs, hwritten, hpadded⟩
    rw [hpadded.trim_eq hwritten.isBlank_eq_false, ofTrimmed?_eq_some_iff.2 hwritten]

/-- What cannot be read is repeated in the error, blanks included. -/
theorem parse_eq_error_iff {s : String} {e : MenuError} :
    parse s = .error e ↔ e = .unknownMatcher s ∧ ∀ m, parse s ≠ .ok m := by
  unfold parse
  split
  · simp
  · simp [eq_comm]

/-- With any blanks around them, a star is read as the set of all parents, the decimal number of a
generic item as the set of its variants, and the text of a key as the set of that key alone. A text
is read only if it is, apart from blanks around it, a star, a numeral of 32 bits, or such a numeral
and one of 64 bits with a colon between them. From any other text an error results that repeats it
as it stands. -/
theorem parse_written (s : String) :
    (Padded ['*'] s.toList → parse s = .ok any) ∧
    (∀ pid < 2 ^ 32, Padded (Text.numeral pid) s.toList → parse s = .ok (generic pid)) ∧
    (∀ key : Key, key.pid < 2 ^ 32 → key.index < 2 ^ 64 → Padded key.text.toList s.toList →
      parse s = .ok (exact key)) ∧
    (∀ m, parse s = .ok m ↔ ∃ cs, m.Written cs ∧ Padded cs s.toList) ∧
    ((∀ m cs, Written m cs → ¬ Padded cs s.toList) → parse s = .error (.unknownMatcher s)) := by
  refine ⟨fun h => ?_, fun pid hlt h => ?_, fun key hpid hindex h => ?_, fun m => parse_eq_ok_iff,
    fun h => ?_⟩
  · exact parse_eq_ok_iff.2 ⟨_, .any, h⟩
  · exact parse_eq_ok_iff.2 ⟨_, .generic hlt (Text.numeral_numeral pid), h⟩
  · refine parse_eq_ok_iff.2 ⟨_, .exact hpid hindex (Text.numeral_numeral _)
      (Text.numeral_numeral _), ?_⟩
    rwa [Key.text, String.toList_ofList] at h
  · refine parse_eq_error_iff.2 ⟨rfl, fun m hm => ?_⟩
    obtain ⟨cs, hwritten, hpadded⟩ := parse_eq_ok_iff.1 hm
    exact h m cs hwritten hpadded

/-- The largest numbers are read, with a wide blank behind them. An index with a sign and a zero in
front is read too, and one number more than 32 bits hold is not. -/
theorem parse_written_largest :
    let key : Key := ⟨4294967295, 18446744073709551615⟩
    key.pid < 2 ^ 32 ∧ key.index < 2 ^ 64 ∧
      Padded key.text.toList " 4294967295:18446744073709551615\u2003".toList ∧
      parse " 4294967295:18446744073709551615\u2003" = .ok (exact key) ∧
      parse "\t4294967295" = .ok (generic 4294967295) ∧ parse "*\n" = .ok any ∧
      parse "9000:+04" = .ok (exact ⟨9000, 4⟩) ∧
      parse " 4294967296" = .error (.unknownMatcher " 4294967296") := by
  intro key
  have hpid : key.pid < 2 ^ 32 := by decide
  have hindex : key.index < 2 ^ 64 := by decide
  have hpadded : Padded key.text.toList " 4294967295:18446744073709551615\u2003".toList :=
    ⟨[' '], ['\u2003'], by decide +kernel, List.forall_mem_singleton.2 (by decide),
      List.forall_mem_singleton.2 (by decide)⟩
  have hnumeral : Padded (Text.numeral 4294967295) "\t4294967295".toList :=
    ⟨['\t'], [], by decide +kernel, List.forall_mem_singleton.2 (by decide), List.forall_mem_nil _⟩
  have hstar : Padded ['*'] "*\n".toList :=
    ⟨[], ['\n'], by decide, List.forall_mem_nil _, List.forall_mem_singleton.2 (by decide)⟩
  refine ⟨hpid, hindex, hpadded, (parse_written _).2.2.1 key hpid hindex hpadded,
    (parse_written _).2.1 _ (by decide) hnumeral, (parse_written _).1 hstar, ?_, ?_⟩
  · decide +kernel
  · decide +kernel

end SpokenOrder.KeyMatcher
