import Mathlib.Algebra.Order.Field.Power
import Mathlib.Tactic.NormNum
import Mathlib.Tactic.Ring
import TableWire.Value.Double
/-!
Doubles and the numbers they stand for. These are read off the sign, exponent and fraction
(`Double.Denotes`), and are whole numbers of units (`Double.denotes_iff`): comparisons are those of
the numbers, and truncation and the cast are exact.
-/

namespace TableWire

namespace Double

/-- The number that a pattern stands for, made of a sign, a biased exponent and a fraction of 52
bits. The lowest exponent has no leading one before the fraction; the highest stands for no
number. -/
inductive Denotes : Double → ℚ → Prop
  | normal {d : Double} {negative : Bool} {e f : ℕ} :
    d.bits.toNat = negative.toNat * 2 ^ 63 + e * 2 ^ 52 + f → 0 < e → e < 2047 → f < 2 ^ 52 →
    Denotes d ((-1) ^ negative.toNat * (1 + f / 2 ^ 52) * 2 ^ ((e : ℤ) - 1023))
  | subnormal {d : Double} {negative : Bool} {f : ℕ} :
    d.bits.toNat = negative.toNat * 2 ^ 63 + f → f < 2 ^ 52 →
    Denotes d ((-1) ^ negative.toNat * (f / 2 ^ 52) * 2 ^ (-1022 : ℤ))

variable {d : Double}

theorem toNat_negative (d : Double) : d.negative.toNat = d.bits.toNat / 2 ^ 63 := by
  have word := d.bits.toNat_lt
  rw [Double.negative, signWeight]
  by_cases large : 0x8000000000000000 ≤ d.bits.toNat
  · rw [decide_eq_true large, Bool.toNat_true]
    omega
  · rw [decide_eq_false large, Bool.toNat_false]
    omega

theorem exponent_lt (d : Double) : d.exponent < 2048 := by
  rw [exponent, signWeight, exponentWeight]
  omega

theorem fraction_lt (d : Double) : d.fraction < 2 ^ 52 := Nat.mod_lt _ (by decide)

theorem bits_eq (d : Double) :
    d.bits.toNat = d.negative.toNat * 2 ^ 63 + d.exponent * 2 ^ 52 + d.fraction := by
  rw [toNat_negative, exponent, fraction, signWeight, exponentWeight]
  omega

theorem fields_eq {negative : Bool} {e f : ℕ} (low : e < 2048) (short : f < 2 ^ 52)
    (bits : d.bits.toNat = negative.toNat * 2 ^ 63 + e * 2 ^ 52 + f) :
    d.negative = negative ∧ d.exponent = e ∧ d.fraction = f := by
  have sign : d.negative.toNat = negative.toNat := by
    rw [toNat_negative]
    omega
  refine ⟨(by decide : ∀ s t : Bool, s.toNat = t.toNat → s = t) _ _ sign, ?_, ?_⟩
  · rw [exponent, signWeight, exponentWeight]
    omega
  · rw [fraction, exponentWeight]
    omega

theorem unitsInOne_eq : unitsInOne = 2 ^ unitPlaces := Nat.one_shiftLeft unitPlaces

theorem unitsInOne_pos : (0 : ℚ) < unitsInOne := by
  rw [unitsInOne_eq, Nat.cast_pos]
  exact Nat.two_pow_pos unitPlaces

theorem unitsInOne_ne_zero : (unitsInOne : ℤ) ≠ 0 := by
  have := unitsInOne_pos
  norm_cast at this ⊢

/-- The weight of the lowest exponent, in the least positive number. -/
theorem two_zpow_lowest : (2 : ℚ) ^ (-1022 : ℤ) = 2 ^ 52 / unitsInOne := by
  have split : (-1022 : ℤ) = (52 : ℕ) - (unitPlaces : ℕ) := by norm_num [unitPlaces]
  rw [split, zpow_sub₀ two_ne_zero, zpow_natCast, zpow_natCast, unitsInOne_eq, Nat.cast_pow,
    Nat.cast_ofNat]

theorem units_of_normal (h : 0 < d.exponent) :
    (d.units : ℚ) / unitsInOne = (1 + d.fraction / 2 ^ 52) * 2 ^ ((d.exponent : ℤ) - 1023) := by
  obtain ⟨k, hk⟩ := Nat.exists_eq_add_of_le' h
  have places : max d.exponent 1 - 1 = k := by omega
  have moved : (d.exponent : ℤ) - 1023 = k + -1022 := by omega
  rw [units, significand, if_neg (Nat.ne_of_gt h), places, moved, zpow_add₀ two_ne_zero,
    two_zpow_lowest, Nat.shiftLeft_eq, zpow_natCast]
  push_cast [exponentWeight]
  ring

theorem units_of_subnormal (h : d.exponent = 0) :
    (d.units : ℚ) / unitsInOne = d.fraction / 2 ^ 52 * 2 ^ (-1022 : ℤ) := by
  have units : d.units = d.fraction := by simp [units, significand, h]
  rw [units, two_zpow_lowest]
  ring

theorem cast_signed (d : Double) : (d.signed : ℚ) = (-1) ^ d.negative.toNat * d.units := by
  rw [signed]
  cases d.negative <;> simp

theorem isFinite_iff : d.isFinite ↔ d.exponent < 2047 := by
  have := d.exponent_lt
  simp only [isFinite, decide_eq_true_eq]
  omega

/-- What a finite pattern stands for is the number of its units. -/
theorem denotes_iff {q : ℚ} : d.Denotes q ↔ d.isFinite ∧ q = d.signed / unitsInOne := by
  rw [isFinite_iff, cast_signed, mul_div_assoc]
  constructor
  · rintro (⟨bits, pos, finite, short⟩ | ⟨bits, short⟩)
    · obtain ⟨rfl, rfl, rfl⟩ := fields_eq (by omega) short bits
      exact ⟨finite, by rw [units_of_normal pos, mul_assoc]⟩
    · obtain ⟨rfl, lowest, rfl⟩ := @fields_eq d _ 0 _ (by decide) short (by simpa using bits)
      exact ⟨by omega, by rw [units_of_subnormal lowest, mul_assoc]⟩
  · rintro ⟨finite, rfl⟩
    by_cases lowest : d.exponent = 0
    · rw [units_of_subnormal lowest, ← mul_assoc]
      exact .subnormal (by simpa [lowest] using d.bits_eq) d.fraction_lt
    · rw [units_of_normal (by omega), ← mul_assoc]
      exact .normal d.bits_eq (by omega) finite d.fraction_lt

theorem denotes_intCast_iff {n : ℤ} : d.Denotes n ↔ d.isFinite ∧ d.signed = n * unitsInOne := by
  rw [denotes_iff, eq_div_iff unitsInOne_pos.ne', eq_comm (b := (d.signed : ℚ))]
  norm_cast

theorem Denotes.isNaN {q : ℚ} (h : d.Denotes q) : d.isNaN = false := by
  have finite := isFinite_iff.mp (denotes_iff.mp h).1
  rw [Double.isNaN, decide_eq_false_iff_not]
  omega

section Comparison

variable {a b : Double} {p q : ℚ}

/-- Finite doubles compare as the numbers they stand for. -/
theorem lt_iff (ha : a.Denotes p) (hb : b.Denotes q) : a.lt b ↔ p < q := by
  rw [(denotes_iff.mp ha).2, (denotes_iff.mp hb).2, div_lt_div_iff_of_pos_right unitsInOne_pos,
    Int.cast_lt]
  simp [lt, ha.isNaN, hb.isNaN]

theorem le_iff (ha : a.Denotes p) (hb : b.Denotes q) : a.le b ↔ p ≤ q := by
  rw [(denotes_iff.mp ha).2, (denotes_iff.mp hb).2, div_le_div_iff_of_pos_right unitsInOne_pos,
    Int.cast_le]
  simp [le, ha.isNaN, hb.isNaN]

theorem isZero_iff : a.isZero ↔ a.units = 0 := by
  have parts := a.bits_eq
  rw [isZero, units, significand, decide_eq_true_eq, Nat.shiftLeft_eq_zero_iff, signWeight,
    exponentWeight]
  have := a.fraction_lt
  have := a.negative.toNat_le
  have := a.exponent_lt
  split <;> omega

theorem equal_zero_iff (ha : a.Denotes p) : a.equal zero ↔ p = 0 := by
  have number := ha.isNaN
  have signed : a.signed = 0 ↔ a.units = 0 := by
    rw [Double.signed]
    split <;> omega
  rw [(denotes_iff.mp ha).2, div_eq_zero_iff, or_iff_left unitsInOne_pos.ne', Int.cast_eq_zero,
    signed, ← isZero_iff]
  have zero : zero.isNaN = false ∧ zero.isZero := by decide
  simp only [equal, number, zero, Bool.not_false, Bool.true_and, Bool.and_true, Bool.or_eq_true,
    decide_eq_true_eq]
  refine or_iff_right_of_imp ?_
  rintro rfl
  exact zero.2

end Comparison

section Fraction

variable {negative : Bool} {n m k : ℕ}

theorem ofUnits_fields (bounded : n.log2 < 2098) :
    (ofUnits negative n).negative = negative ∧
      (ofUnits negative n).exponent = (if n < 2 ^ 52 then 0 else n.log2 - 52 + 1) ∧
      (ofUnits negative n).fraction = n / 2 ^ (n.log2 - 52) % 2 ^ 52 := by
  have low : (if n < 2 ^ 52 then 0 else n.log2 - 52 + 1) < 2048 := by
    split <;> omega
  have short : n / 2 ^ (n.log2 - 52) % 2 ^ 52 < 2 ^ 52 := Nat.mod_lt _ (by decide)
  have word (e f : ℕ) (he : e < 2048) (hf : f < 2 ^ 52) :
      negative.toNat * 2 ^ 63 + e * 2 ^ 52 + f < 2 ^ 64 := by
    have := negative.toNat_le
    omega
  refine fields_eq low short ?_
  rw [ofUnits, UInt64.toNat_ofNat', Nat.shiftRight_eq_div_pow]
  exact Nat.mod_eq_of_lt (word _ _ low short)

theorem units_ofUnits_of_lt (short : n < 2 ^ 52) : (ofUnits negative n).units = n := by
  have low : n.log2 < 52 := by
    by_cases zero : n = 0
    · rw [zero, Nat.log2_zero]
      decide
    · exact (Nat.log2_lt zero).mpr short
  obtain ⟨-, exponent, fraction⟩ := @ofUnits_fields negative n (by omega)
  rw [units, significand, exponent, fraction, if_pos short, if_pos rfl,
    Nat.sub_eq_zero_of_le low.le, pow_zero, Nat.div_one, Nat.mod_eq_of_lt short]
  rfl

/-- The leading bit is not written, and the bits below the fraction are none. -/
theorem units_ofUnits_of_le (long : 2 ^ 52 ≤ n) (bounded : n.log2 < 2098)
    (none_lost : 2 ^ (n.log2 - 52) ∣ n) : (ofUnits negative n).units = n := by
  have some : n ≠ 0 := by omega
  have high : 52 ≤ n.log2 := (Nat.le_log2 some).mpr long
  obtain ⟨-, exponent, fraction⟩ := @ofUnits_fields negative n bounded
  obtain ⟨k, hk⟩ := Nat.exists_eq_add_of_le high
  have shift : n.log2 - 52 = k := by omega
  rw [shift] at none_lost exponent fraction
  have leading : 2 ^ 52 ≤ n / 2 ^ k ∧ n / 2 ^ k < 2 ^ 53 := by
    rw [Nat.le_div_iff_mul_le (Nat.two_pow_pos _), Nat.div_lt_iff_lt_mul (Nat.two_pow_pos _),
      ← Nat.pow_add, ← Nat.pow_add, ← hk, Nat.add_right_comm 52 1 k, ← hk]
    exact ⟨Nat.log2_self_le some, Nat.lt_log2_self⟩
  have kept : n / 2 ^ k % 2 ^ 52 + 2 ^ 52 = n / 2 ^ k := by omega
  have places : max (k + 1) 1 - 1 = k := by omega
  rw [units, significand, exponent, fraction, if_neg (Nat.not_lt.mpr long),
    if_neg (Nat.succ_ne_zero k), exponentWeight, Nat.shiftLeft_eq, places]
  exact (congrArg (· * 2 ^ k) kept).trans (Nat.div_mul_cancel none_lost)

/-- What fits the significand is kept as it is. -/
theorem signed_ofUnits (short : m < 2 ^ 53) (low : k ≤ 2045) :
    (ofUnits negative (m * 2 ^ k)).isFinite ∧
      (ofUnits negative (m * 2 ^ k)).signed =
        if negative then -((m * 2 ^ k : ℕ) : ℤ) else (m * 2 ^ k : ℕ) := by
  obtain ⟨n, hn⟩ : ∃ n, n = m * 2 ^ k := ⟨_, rfl⟩
  have log : n.log2 < 53 + k := by
    by_cases none : n = 0
    · rw [none, Nat.log2_zero]
      omega
    · rw [Nat.log2_lt none, hn, Nat.pow_add]
      exact Nat.mul_lt_mul_of_pos_right short (Nat.two_pow_pos k)
  have units : (ofUnits negative n).units = n := by
    rcases Nat.lt_or_ge n (2 ^ 52) with below | above
    · exact units_ofUnits_of_lt below
    · have within : n.log2 - 52 ≤ k := by omega
      refine units_ofUnits_of_le above (by omega) ((Nat.pow_dvd_pow 2 within).trans ?_)
      exact ⟨m, hn.trans (Nat.mul_comm _ _)⟩
  obtain ⟨sign, exponent, -⟩ := @ofUnits_fields negative n (by omega)
  rw [← hn, signed, sign, units, isFinite_iff, exponent]
  exact ⟨by split <;> omega, rfl⟩

/-- What is left of the units when whole numbers are taken off is no longer than the significand. -/
theorem exists_rest (finite : d.isFinite) :
    ∃ m k, m < 2 ^ 53 ∧ k ≤ 2045 ∧ d.units % unitsInOne = m * 2 ^ k := by
  have exponent := isFinite_iff.mp finite
  have short : d.significand < 2 ^ 53 := by
    have := d.fraction_lt
    rw [significand, exponentWeight]
    split <;> omega
  obtain ⟨k, hk⟩ : ∃ k, k = max d.exponent 1 - 1 := ⟨_, rfl⟩
  rw [units, ← hk, Nat.shiftLeft_eq, unitsInOne_eq]
  by_cases below : k ≤ unitPlaces
  · have split : 2 ^ unitPlaces = 2 ^ (unitPlaces - k) * 2 ^ k := by
      rw [← Nat.pow_add, Nat.sub_add_cancel below]
    rw [split, Nat.mul_mod_mul_right]
    exact ⟨_, k, (Nat.mod_le _ _).trans_lt short, by omega, rfl⟩
  · have whole : 2 ^ unitPlaces ∣ d.significand * 2 ^ k :=
      (Nat.pow_dvd_pow 2 (Nat.le_of_not_le below)).mul_left _
    exact ⟨0, 0, by decide, by decide, by rw [Nat.mod_eq_zero_of_dvd whole, Nat.zero_mul]⟩

theorem tmod_signed (d : Double) : d.signed.tmod unitsInOne =
    if d.negative then -((d.units % unitsInOne : ℕ) : ℤ) else (d.units % unitsInOne : ℕ) := by
  rw [signed]
  split
  · rw [Int.neg_tmod, Int.ofNat_tmod]
  · rw [Int.ofNat_tmod]

theorem signed_fract (finite : d.isFinite) :
    d.fract.isFinite ∧ d.fract.signed = d.signed.tmod unitsInOne := by
  rw [fract, if_neg (not_not.mpr finite), tmod_signed]
  by_cases whole : d.units % unitsInOne = 0
  · rw [if_pos whole, whole]
    have none : zero.isFinite ∧ zero.signed = 0 := by decide
    simpa using none
  · obtain ⟨m, k, short, low, rest⟩ := exists_rest finite
    rw [if_neg whole, rest]
    exact signed_ofUnits short low

/-- The fraction of a number is what truncation takes off. -/
theorem denotes_fract {q : ℚ} (h : d.Denotes q) :
    d.fract.Denotes (q - d.signed.tdiv unitsInOne) := by
  obtain ⟨finite, rfl⟩ := denotes_iff.mp h
  obtain ⟨finite', rest⟩ := signed_fract finite
  refine denotes_iff.mpr ⟨finite', ?_⟩
  rw [rest, eq_div_iff unitsInOne_pos.ne', sub_mul, div_mul_cancel₀ _ unitsInOne_pos.ne']
  have split := Int.tmod_add_mul_tdiv d.signed unitsInOne
  rw [← eq_sub_iff_add_eq] at split
  rw [split]
  push_cast
  ring

/-- A number without a fraction is an integer. -/
theorem fract_equal_zero_iff (finite : d.isFinite) :
    d.fract.equal zero ↔ ∃ n : ℤ, d.Denotes n := by
  have number := denotes_iff.mpr ⟨finite, rfl⟩
  rw [equal_zero_iff (denotes_fract number), sub_eq_zero]
  constructor
  · intro whole
    exact ⟨_, whole ▸ number⟩
  · rintro ⟨n, whole⟩
    have units := (denotes_intCast_iff.mp whole).2
    rw [units, Int.mul_tdiv_cancel _ unitsInOne_ne_zero, Int.cast_mul, Int.cast_natCast,
      mul_div_cancel_right₀ _ unitsInOne_pos.ne']

end Fraction

/-- The cast of an integer of 64 bits is this integer. -/
theorem toInt64_of_denotes {n : ℤ} (low : -2 ^ 63 ≤ n) (high : n < 2 ^ 63) (h : d.Denotes n) :
    d.toInt64 = Int64.ofInt n := by
  have units := (denotes_intCast_iff.mp h).2
  have within : max Int64.minValue.toInt (min n Int64.maxValue.toInt) = n := by
    rw [Int64.toInt_minValue, Int64.toInt_maxValue]
    omega
  rw [toInt64, h.isNaN, if_neg Bool.false_ne_true, units,
    Int.mul_tdiv_cancel _ unitsInOne_ne_zero, within]

theorem denotes_integerBound : integerBound.Denotes (2 ^ 63) := by
  have bits : integerBound.bits.toNat = false.toNat * 2 ^ 63 + 1086 * 2 ^ 52 + 0 := by decide
  convert Denotes.normal bits (by decide) (by decide) (by decide) using 1
  norm_num

theorem denotes_neg_integerBound : integerBound.neg.Denotes (-2 ^ 63) := by
  have bits : integerBound.neg.bits.toNat = true.toNat * 2 ^ 63 + 1086 * 2 ^ 52 + 0 := by decide
  convert Denotes.normal bits (by decide) (by decide) (by decide) using 1
  norm_num

end Double

end TableWire
