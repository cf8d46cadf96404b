import Mathlib
import SpokenOrder.Lattice.Score

/-!
# Rounding of sums

The weights of the paths over a text are sums of word counts, rounded at each step. What such a sum
comes to is a `Score.Moderate` number: adding a count does not round it up beyond the bound that it
is below (`Score.UpTo.add`), however many counts there are, so no sum overflows. A number that is
neither infinite nor absent is close to itself (`Score.close_self`).
-/

namespace SpokenOrder.Score

open Float.Model Float.Model.UnpackedFloat

/-! ## Cutting off places -/

/-- The mantissa is what is left of `n` when so many binary places are cut off. The round bit is set
only if what is cut off is half of the last place or more. -/
structure Truncates (n places : Nat) (em : ExtendedMantissa) : Prop where
  le : em.mantissa * 2 ^ places ≤ n
  lt : n < (em.mantissa + 1) * 2 ^ places
  half : em.roundBit = true → (2 * em.mantissa + 1) * 2 ^ places ≤ 2 * n

section
variable {n places : Nat} {em : ExtendedMantissa}

/-- One more place is cut off. -/
theorem Truncates.shiftRightOne (h : Truncates n places em) :
    Truncates n (places + 1) em.shiftRightOne := by
  have hle := h.le
  have hlt := h.lt
  have hparts := Nat.div_add_mod em.mantissa 2
  refine ⟨?_, ?_, fun hround => ?_⟩
  · calc em.mantissa / 2 * 2 ^ (places + 1)
        = 2 * (em.mantissa / 2) * 2 ^ places := by ring
      _ ≤ em.mantissa * 2 ^ places := Nat.mul_le_mul_right _ (by omega)
      _ ≤ n := hle
  · calc n < (em.mantissa + 1) * 2 ^ places := hlt
      _ ≤ 2 * (em.mantissa / 2 + 1) * 2 ^ places := Nat.mul_le_mul_right _ (by omega)
      _ = (em.mantissa / 2 + 1) * 2 ^ (places + 1) := by ring
  · have hodd : 2 * (em.mantissa / 2) + 1 = em.mantissa := by
      have hne : em.mantissa % 2 ≠ 0 := by simpa [ExtendedMantissa.shiftRightOne] using hround
      omega
    calc (2 * (em.mantissa / 2) + 1) * 2 ^ (places + 1)
        = 2 * (em.mantissa * 2 ^ places) := by rw [hodd]; ring
      _ ≤ 2 * n := Nat.mul_le_mul_left 2 hle

/-- Shifting an exact mantissa to the right cuts off its last places. -/
theorem truncates_shiftRight (n places : Nat) :
    Truncates n places (ExtendedMantissa.ofMantissaAndAccuracy n .exact >>> places) := by
  show Truncates n places (places.repeat ExtendedMantissa.shiftRightOne _)
  induction places with
  | zero =>
    exact ⟨Nat.le_of_eq (Nat.mul_one n), Nat.lt_of_lt_of_eq n.lt_succ_self (Nat.mul_one _).symm,
      nofun⟩
  | succ places ih => exact ih.shiftRightOne

/-- Rounding never makes a mantissa smaller. -/
theorem mantissa_le_roundedMantissa (em : ExtendedMantissa) :
    em.mantissa ≤ em.roundedMantissa := by
  obtain ⟨mantissa, roundBit, stickyBit⟩ := em
  cases roundBit <;> cases stickyBit <;>
    simp [ExtendedMantissa.roundedMantissa, ExtendedMantissa.accuracy,
      Accuracy.roundToNearestEven]

/-- Rounding adds no more than one to the mantissa, and nothing without the round bit. -/
theorem roundedMantissa_le (em : ExtendedMantissa) :
    em.roundedMantissa ≤ em.mantissa + em.roundBit.toNat := by
  obtain ⟨mantissa, roundBit, stickyBit⟩ := em
  cases roundBit <;> cases stickyBit <;>
    simp [ExtendedMantissa.roundedMantissa, ExtendedMantissa.accuracy,
      Accuracy.roundToNearestEven]
  omega

/-- What has as many places left is not rounded to less. -/
theorem Truncates.le_roundedMantissa (h : Truncates n places em) {b : Nat}
    (hb : b * 2 ^ places ≤ n) : b ≤ em.roundedMantissa := by
  refine Nat.le_trans ?_ (mantissa_le_roundedMantissa em)
  have hlt := Nat.lt_of_mul_lt_mul_right (Nat.lt_of_le_of_lt hb h.lt)
  omega

/-- Rounding adds no more than half of the last place. -/
theorem Truncates.roundedMantissa_mul_le (h : Truncates n places em) :
    2 * (em.roundedMantissa * 2 ^ places) ≤ 2 * n + 2 ^ places := by
  have hle := h.le
  have hrounded := roundedMantissa_le em
  cases hround : em.roundBit with
  | false =>
    rw [hround, Bool.toNat_false] at hrounded
    calc 2 * (em.roundedMantissa * 2 ^ places)
        ≤ 2 * (em.mantissa * 2 ^ places) :=
          Nat.mul_le_mul_left 2 (Nat.mul_le_mul_right _ hrounded)
      _ ≤ 2 * n + 2 ^ places := Nat.le_add_right_of_le (Nat.mul_le_mul_left 2 hle)
  | true =>
    have hhalf := h.half hround
    rw [hround, Bool.toNat_true] at hrounded
    calc 2 * (em.roundedMantissa * 2 ^ places)
        ≤ 2 * ((em.mantissa + 1) * 2 ^ places) :=
          Nat.mul_le_mul_left 2 (Nat.mul_le_mul_right _ hrounded)
      _ = (2 * em.mantissa + 1) * 2 ^ places + 2 ^ places := by ring
      _ ≤ 2 * n + 2 ^ places := Nat.add_le_add_right hhalf _

/-- Of a number with so many places more than 53, there are 53 left. -/
theorem Truncates.mantissa_bounds (h : Truncates n places em) (hlow : 2 ^ 52 * 2 ^ places ≤ n)
    (hhigh : n < 2 ^ 53 * 2 ^ places) : 2 ^ 52 ≤ em.mantissa ∧ em.mantissa < 2 ^ 53 := by
  have hlt := Nat.lt_of_mul_lt_mul_right (Nat.lt_of_le_of_lt hlow h.lt)
  exact ⟨by omega, Nat.lt_of_mul_lt_mul_right (Nat.lt_of_le_of_lt h.le hhigh)⟩

/-- What is below `2 ^ (k + 53)` by more than half of the last place is not rounded up to it. -/
theorem Truncates.places_le (h : Truncates n places em) (hlow : 2 ^ 52 * 2 ^ places ≤ n) {k : Nat}
    (hbound : 2 * n < (2 ^ 54 - 1) * 2 ^ k) {places' : Nat}
    (hlow' : 2 ^ 52 * 2 ^ places' ≤ em.roundedMantissa) : places' + places ≤ k := by
  have hrounded := h.roundedMantissa_mul_le
  have hle : places ≤ k := by
    by_contra hgt
    have hpow : 2 ^ (k + 1) ≤ 2 ^ places := Nat.pow_le_pow_right two_pos (by omega)
    omega
  have hpow : 2 ^ places ≤ 2 ^ k := Nat.pow_le_pow_right two_pos hle
  by_contra hgt
  have hpow' : 2 ^ (k + 1) ≤ 2 ^ places' * 2 ^ places := by
    rw [← Nat.pow_add]
    exact Nat.pow_le_pow_right two_pos (by omega)
  have hmul := Nat.mul_le_mul_right (2 ^ places) hlow'
  rw [Nat.mul_assoc] at hmul
  omega

end

/-! ## Moderate numbers -/

/-- Zero, or a positive number with 53 binary places, the last of which weighs between `2 ^ -52` and
`2 ^ top`. -/
inductive Moderate (top : Int) : UnpackedFloat → Prop
  | zero (sign : Sign) : Moderate top (.zero sign)
  | finite {mantissa : Nat} {exponent : Int} {pos : 0 < mantissa} :
      2 ^ 52 ≤ mantissa → mantissa < 2 ^ 53 → -52 ≤ exponent → exponent ≤ top →
      Moderate top (.finite .positive mantissa exponent pos)

/-- The exponent to which a number is rounded leaves it 53 binary places. -/
theorem targetExponent_eq {n : Nat} {e : Int} (h : 0 ≤ n.log2 + e) :
    Format.binary64.targetExponent (totalExponent n e) = e + (n.log2 - 52) := by
  have hmin : Format.binary64.minExponent = -1074 := rfl
  have hbits : (Format.binary64.mantissaBits : Int) = 53 := rfl
  rw [Format.targetExponent, totalExponent, hmin, hbits]
  omega

/-- A number with 53 binary places or more is so many places longer than 53. -/
theorem exists_log2_eq {n : Nat} (h52 : 2 ^ 52 ≤ n) : ∃ places, n.log2 = places + 52 ∧
    2 ^ 52 * 2 ^ places ≤ n ∧ n < 2 ^ 53 * 2 ^ places := by
  have hne : n ≠ 0 := by omega
  have hlog := (Nat.le_log2 hne).2 h52
  refine ⟨n.log2 - 52, by omega, ?_, ?_⟩
  · rw [← Nat.pow_add, Nat.add_sub_cancel' hlog]
    exact Nat.log2_self_le hne
  · rw [← Nat.pow_add, ← Nat.log2_lt hne]
    omega

/-- A number is cut off to 53 binary places. -/
theorem shiftToTargetExponent_eq {n places : Nat} {e : Int} (hlog : n.log2 = places + 52)
    (h : -52 ≤ e + places) : shiftToTargetExponent .binary64 n e .exact =
      (ExtendedMantissa.ofMantissaAndAccuracy n .exact >>> places, e + places) := by
  have hplaces : (e + ((n.log2 : Int) - 52) - e).toNat = places := by omega
  unfold shiftToTargetExponent shiftToExponent
  simp only [targetExponent_eq (show 0 ≤ n.log2 + e by omega), hplaces]

/-- A number of 1 or more that is below the bound by more than half of its last place is rounded to
a moderate number. -/
theorem moderate_roundWithAccuracy {n k : Nat} {e : Int} (h52 : 2 ^ 52 ≤ n)
    (h : 0 ≤ n.log2 + e) (hbound : 2 * n < (2 ^ 54 - 1) * 2 ^ k) :
    Moderate (e + k) (roundWithAccuracy .binary64 .positive n e .exact) := by
  obtain ⟨places, hlog, hlow, hhigh⟩ := exists_log2_eq h52
  have htrunc := truncates_shiftRight n places
  generalize hem : ExtendedMantissa.ofMantissaAndAccuracy n .exact >>> places = em at htrunc
  -- The rounded number is cut off again: it has one place too many if it is `2 ^ 53`.
  obtain ⟨places', hlog', hlow', hhigh'⟩ := exists_log2_eq (htrunc.le_roundedMantissa hlow)
  have htrunc' := truncates_shiftRight em.roundedMantissa places'
  generalize hem' : ExtendedMantissa.ofMantissaAndAccuracy em.roundedMantissa .exact >>> places' =
    em' at htrunc'
  have hplaces := htrunc.places_le hlow hbound hlow'
  obtain ⟨hmantissa, hmantissa'⟩ := htrunc'.mantissa_bounds hlow' hhigh'
  unfold roundWithAccuracy
  simp only [shiftToTargetExponent_eq hlog (by omega : -52 ≤ e + places), hem,
    shiftToTargetExponent_eq hlog' (by omega : -52 ≤ e + places + places'), hem']
  rw [dif_neg (by omega)]
  exact .finite hmantissa hmantissa' (by omega) (by omega)

/-- What is moderate up to a bound is so up to a larger one. -/
theorem Moderate.mono {a b : Int} {u : UnpackedFloat} (h : Moderate a u) (hab : a ≤ b) :
    Moderate b u := by
  cases h with
  | zero sign => exact .zero sign
  | finite hlow hhigh hexp htop => exact .finite hlow hhigh hexp (Int.le_trans htop hab)

/-- A number of 53 binary places is packed without its leading one. -/
theorem pack_eq_packComponents {mantissa biased : Nat} {pos : 0 < mantissa}
    (hlow : 2 ^ 52 ≤ mantissa) (hhigh : mantissa < 2 ^ 53) (hbiased : biased + 1 < 2 ^ 11) :
    UnpackedFloat.pack Format.binary64 (.finite .positive mantissa (biased - 1075) pos) =
      packComponents Format.binary64 .positive (BitVec.ofNat 11 biased)
        (BitVec.ofNat 52 mantissa) := by
  have hlog : mantissa.log2 + 1 = Format.binary64.mantissaBits := by
    rw [(Nat.log2_eq_iff (by omega)).2 ⟨hlow, hhigh⟩]
    rfl
  have hbias : ((biased : Int) - 1075 + Format.binary64.exponentBias + (52 : Nat)).toNat =
      biased := by
    show ((biased : Int) - 1075 + 1023 + 52).toNat = biased
    omega
  simp only [UnpackedFloat.pack, hbias]
  rw [if_neg (by omega), if_pos hlog]

/-- What is packed is unpacked again. -/
theorem unpack_packComponents {mantissa biased : Nat} (pos : 0 < mantissa)
    (hlow : 2 ^ 52 ≤ mantissa) (hhigh : mantissa < 2 ^ 53) (hpos : 0 < biased)
    (hbiased : biased + 1 < 2 ^ 11) :
    UnpackedFloat.unpack Format.binary64 (packComponents Format.binary64 .positive
      (BitVec.ofNat 11 biased) (BitVec.ofNat 52 mantissa)) =
        .finite .positive mantissa (biased - 1075) pos := by
  have hexponent : (BitVec.ofNat 11 biased).toNat = biased := by
    rw [BitVec.toNat_ofNat, Nat.mod_eq_of_lt (by omega)]
  have hmantissa : (1#1 ++ BitVec.ofNat 52 mantissa).toNat = mantissa := by
    rw [BitVec.toNat_append, ← Nat.shiftLeft_add_eq_or_of_lt (BitVec.isLt _)]
    simp only [BitVec.toNat_ofNat, Nat.shiftLeft_eq]
    omega
  have hones : BitVec.ofNat 11 biased ≠ -1#11 := fun heq => by
    have hval := congrArg BitVec.toNat heq
    rw [hexponent, show (-1#11).toNat = 2047 from rfl] at hval
    omega
  have hzeros : BitVec.ofNat 11 biased ≠ 0#11 := fun heq => by
    have hval := congrArg BitVec.toNat heq
    rw [hexponent, BitVec.toNat_zero] at hval
    omega
  rw [UnpackedFloat.unpack]
  simp only [unpackMantissa_packComponents, unpackExponent_packComponents,
    unpackSign_packComponents, Sign.ofBitVec_toBitVec]
  rw [if_neg hones, if_neg hzeros]
  simp only [hmantissa, hexponent]
  rfl

/-- The format has room for moderate numbers. -/
theorem Moderate.unpack_pack {top : Int} {u : UnpackedFloat} (h : Moderate top u)
    (htop : top ≤ 971) : (Float.Model.pack u).unpack = u := by
  show UnpackedFloat.unpack Format.binary64 (UnpackedFloat.pack Format.binary64 u) = u
  cases h with
  | zero sign => exact unpack_packedZero
  | @finite mantissa exponent pos hlow hhigh hexp hle =>
    obtain ⟨biased, rfl⟩ : ∃ biased : Nat, exponent = biased - 1075 :=
      ⟨(exponent + 1075).toNat, by omega⟩
    rw [pack_eq_packComponents hlow hhigh (by omega),
      unpack_packComponents pos hlow hhigh (by omega) (by omega)]

/-! ## Sums and products -/

/-- Shifting a number adds to its binary places. -/
theorem log2_shiftLeft {n : Nat} (hn : n ≠ 0) (places : Nat) :
    (n <<< places).log2 = n.log2 + places := by
  induction places with
  | zero => rfl
  | succ places ih =>
    have hne : n <<< places ≠ 0 := by
      rw [Nat.shiftLeft_eq]
      positivity
    rw [Nat.shiftLeft_succ, Nat.log2_two_mul hne, ih, Nat.add_assoc]

/-- A number with fewer than 53 places is shifted to 53 before it is rounded. -/
theorem moderate_round {n k : Nat} {e : Int} (hn : n ≠ 0) (h : 0 ≤ n.log2 + e)
    (hbound : 2 * n < (2 ^ 54 - 1) * 2 ^ k) :
    Moderate (e + k) (UnpackedFloat.round .binary64 .positive n e) := by
  obtain ⟨places, hplaces⟩ : ∃ places, places = 52 - n.log2 := ⟨_, rfl⟩
  have hlog := log2_shiftLeft hn places
  have h52 : 2 ^ 52 ≤ n <<< places := by
    rw [← Nat.le_log2 (by rw [Nat.shiftLeft_eq]; positivity), hlog]
    omega
  have hbound' : 2 * n <<< places < (2 ^ 54 - 1) * 2 ^ (k + places) := by
    rw [Nat.shiftLeft_eq, Nat.pow_add, ← Nat.mul_assoc, ← Nat.mul_assoc]
    exact Nat.mul_lt_mul_of_pos_right hbound (by positivity)
  have hshift : (e - (e + ((n.log2 : Int) - 52))).toNat = places := by omega
  have hmoderate := moderate_roundWithAccuracy (e := e - places) h52 (by omega) hbound'
  rw [show e - places + (k + places : Nat) = e + k by omega] at hmoderate
  simp only [UnpackedFloat.round, decreaseExponent, targetExponent_eq h, hshift]
  exact hmoderate

/-- Of a positive number, normalizing only rounds. -/
theorem normalize_of_pos {n : Nat} (hn : n ≠ 0) (e : Int) (sign : Sign) :
    UnpackedFloat.normalize .binary64 n e sign = UnpackedFloat.round .binary64 .positive n e := by
  have hgt : compare (n : Int) 0 = .gt := Int.compare_eq_gt.2 (by omega)
  simp only [UnpackedFloat.normalize, hgt, Int.toNat_natCast]

/-- The sum of two mantissas of 53 places, one of them shifted 54 places less than the bound allows,
is below the bound by more than half of a place. -/
theorem two_mul_sum_lt {m n i j k : Nat} (hm : m < 2 ^ 53) (hn : n < 2 ^ 53) (hi : i + 54 ≤ k)
    (hj : j ≤ k) : 2 * (m * 2 ^ i + n * 2 ^ j) < (2 ^ 54 - 1) * 2 ^ k := by
  have hsmall : m * 2 ^ i < 2 ^ 53 * 2 ^ i := Nat.mul_lt_mul_of_pos_right hm (by positivity)
  have hgap : 2 ^ (i + 54) ≤ 2 ^ k := Nat.pow_le_pow_right two_pos hi
  rw [Nat.pow_add] at hgap
  have hlarge : n * 2 ^ j ≤ (2 ^ 53 - 1) * 2 ^ k :=
    Nat.mul_le_mul (by omega) (Nat.pow_le_pow_right two_pos hj)
  omega

/-- The sum of a number and a much smaller one is not rounded up beyond the bound. -/
theorem Moderate.add {a b : Int} {u v : UnpackedFloat} (hu : Moderate a u) (hv : Moderate b v)
    (hab : a + 54 ≤ b) : Moderate b (UnpackedFloat.add .binary64 u v) := by
  cases hu with
  | zero sign =>
    cases hv with
    | zero sign' =>
      show Moderate b (if sign == sign' then .zero sign else .zero .positive)
      split <;> exact .zero _
    | finite hlow hhigh hexp htop => exact .finite hlow hhigh hexp htop
  | @finite m d _ hlow hhigh hexp htop =>
    cases hv with
    | zero sign' => exact .finite hlow hhigh hexp (by omega)
    | @finite n e _ hlow' hhigh' hexp' htop' =>
      have hle := Int.min_le_left d e
      have hle' := Int.min_le_right d e
      simp only [UnpackedFloat.add, decreaseExponent, Sign.apply]
      generalize min d e = c at hle hle'
      obtain ⟨i, rfl⟩ : ∃ i : Nat, d = c + i := ⟨(d - c).toNat, by omega⟩
      obtain ⟨j, rfl⟩ : ∃ j : Nat, e = c + j := ⟨(e - c).toNat, by omega⟩
      obtain ⟨k, rfl⟩ : ∃ k : Nat, b = c + k := ⟨(b - c).toNat, by omega⟩
      have hi : (c + i - c).toNat = i := by omega
      have hj : (c + j - c).toNat = j := by omega
      rw [hi, hj, ← Nat.cast_add, Nat.shiftLeft_eq, Nat.shiftLeft_eq]
      have hlow'' : 2 ^ (52 + i) ≤ m * 2 ^ i + n * 2 ^ j := by
        rw [Nat.pow_add]
        exact Nat.le_add_right_of_le (Nat.mul_le_mul_right _ hlow)
      have hne : m * 2 ^ i + n * 2 ^ j ≠ 0 :=
        Nat.ne_of_gt (Nat.lt_of_lt_of_le (by positivity) hlow'')
      have hlog := (Nat.le_log2 hne).2 hlow''
      rw [normalize_of_pos hne]
      exact moderate_round hne (by omega) (two_mul_sum_lt hhigh hhigh' (by omega) (by omega))

/-- Places add up in a product: 53 of each factor, less the 53 that are left. -/
theorem Moderate.mul {a b : Int} {u v : UnpackedFloat} (hu : Moderate a u) (hv : Moderate b v) :
    Moderate (a + b + 53) (UnpackedFloat.mul .binary64 u v) := by
  cases hu with
  | zero sign => cases hv <;> exact .zero _
  | @finite m d _ hlow hhigh hexp htop =>
    cases hv with
    | zero sign' => exact .zero _
    | @finite n e _ hlow' hhigh' hexp' htop' =>
      obtain ⟨i, rfl⟩ : ∃ i : Nat, a = d + i := ⟨(a - d).toNat, by omega⟩
      obtain ⟨j, rfl⟩ : ∃ j : Nat, b = e + j := ⟨(b - e).toNat, by omega⟩
      have hlog : 104 ≤ (m * n).log2 := by
        rw [Nat.le_log2 (by positivity)]
        calc 2 ^ 104 = 2 ^ 52 * 2 ^ 52 := by norm_num
          _ ≤ m * n := Nat.mul_le_mul hlow hlow'
      have hbound : 2 * (m * n) < (2 ^ 54 - 1) * 2 ^ (i + j + 53) := by
        have hprod : m * n ≤ (2 ^ 53 - 1) * (2 ^ 53 - 1) :=
          Nat.mul_le_mul (by omega) (by omega)
        have hpow : 2 ^ 53 ≤ 2 ^ (i + j + 53) := Nat.pow_le_pow_right two_pos (by omega)
        omega
      have hmoderate := moderate_roundWithAccuracy (e := d + e)
        ((Nat.le_log2 (by positivity)).1 (by omega)) (by omega) hbound
      rw [show d + e + (i + j + 53 : Nat) = d + i + (e + j) + 53 by omega] at hmoderate
      exact hmoderate

/-- The difference of a moderate number from itself is exactly zero. -/
theorem Moderate.sub_self {a : Int} {u : UnpackedFloat} (hu : Moderate a u) :
    UnpackedFloat.sub .binary64 u u = .zero .positive := by
  cases hu with
  | zero sign => cases sign <;> rfl
  | finite => simp [UnpackedFloat.sub, UnpackedFloat.normalize]

/-! ## Scores that are added up -/

/-- The score is a moderate number. -/
def UpTo (top : Int) (s : Float) : Prop := Moderate top s.toModel.unpack

section
variable {a b : Int} {s t : Float}

/-- Packing a moderate number loses nothing. -/
theorem Moderate.upTo {u : UnpackedFloat} (hu : Moderate a u) (ha : a ≤ 971) :
    UpTo a (.ofModel (.pack u)) := by
  show Moderate a (Float.Model.pack u).unpack
  rw [hu.unpack_pack ha]
  exact hu

/-- Sums are moderate if there is room for rounding. -/
theorem UpTo.add (hs : UpTo a s) (ht : UpTo b t) (hab : a + 54 ≤ b) (hb : b ≤ 971) :
    UpTo b (s + t) :=
  (Moderate.add hs ht hab).upTo hb

/-- Products are moderate if there is room for rounding. -/
theorem UpTo.mul (hs : UpTo a s) (ht : UpTo b t) (htop : a + b + 53 ≤ 971) :
    UpTo (a + b + 53) (s * t) :=
  (Moderate.mul hs ht).upTo htop

theorem upTo_zero (top : Int) : UpTo top 0 := Moderate.zero .positive

theorem upTo_one : UpTo (-52) 1 :=
  show Moderate (-52) (.finite .positive (2 ^ 52) (-52) (by decide)) from
    .finite (by decide) (by decide) (by decide) (by decide)

/-- A number that is neither infinite nor absent is close to itself. -/
theorem close_self (hs : UpTo a s) : close s s = true := by
  have hzero : s - s = 0 := by
    show Float.ofModel (.pack (UnpackedFloat.sub .binary64 s.toModel.unpack s.toModel.unpack)) = 0
    rw [Moderate.sub_self hs]
    rfl
  show decide ((s - s).abs < 1e-9) = true
  rw [hzero]
  decide +kernel

/-- The larger of two scores is one of them. -/
theorem larger_eq (s t : Float) : larger s t = s ∨ larger s t = t := by
  show (if _ then t else s) = s ∨ (if _ then t else s) = t
  split
  · exact .inr rfl
  · exact .inl rfl

/-- Numbers that fit a machine word are moderate. -/
theorem moderate_ofNat {n : Nat} (hn : n < 2 ^ 64) :
    Moderate 12 (UnpackedFloat.ofNat .binary64 n) := by
  by_cases hzero : n = 0
  · rw [hzero]
    exact .zero .positive
  · have hmoderate := moderate_round (k := 12) (e := 0) hzero (by omega) (by omega)
    rw [← normalize_of_pos hzero 0 .positive] at hmoderate
    exact hmoderate

/-- Positive numbers that fit a machine word are moderate. -/
theorem moderate_ofScientific {n : Nat} (hne : n ≠ 0) (hn : n < 2 ^ 64) :
    Moderate 12 (UnpackedFloat.ofScientific .binary64 n 0) := by
  have hlog := log2_shiftLeft hne 53
  have hshift : n <<< 53 = n * 2 ^ 53 := Nat.shiftLeft_eq n 53
  have hmoderate := moderate_roundWithAccuracy (n := n <<< 53) (k := 65) (e := -53)
    (by omega) (by omega) (by omega)
  unfold UnpackedFloat.ofScientific
  have hmost : (2 : Int) ^ Format.binary64.exponentBits = 2048 := rfl
  rw [dif_neg hne, if_neg (by decide), if_neg (by omega), if_pos (by decide)]
  unfold UnpackedFloat.mul
  simp only
  rw [show n <<< Format.binary64.mantissaBits * 10 ^ Int.toNat 0 = n <<< 53 from Nat.mul_one _]
  exact hmoderate

/-- Counts that a machine word holds. -/
theorem upTo_ofNat {n : Nat} (hn : n < 2 ^ 64) : UpTo 13 (Float.ofNat n) := by
  show UpTo 13 (Float.ofScientific n false 0)
  rw [Float.ofScientific]
  split
  · next hsmall =>
    have hword : UpTo 12 n.toUInt64.toFloat := (moderate_ofNat n.toUInt64.toNat_lt).upTo (by decide)
    exact hword.mul upTo_one (by decide)
  · next hlarge =>
    have hne : n ≠ 0 := by omega
    exact ((moderate_ofScientific hne hn).mono (by decide)).upTo (by decide)

end

end SpokenOrder.Score
