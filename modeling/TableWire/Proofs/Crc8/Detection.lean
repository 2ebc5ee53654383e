import Mathlib.Data.FinEnum
import TableWire.Proofs.Crc8
import TableWire.Proofs.Crc8.Division
/-!
Which damage the check tells. Two strings of one length fold alike exactly when the polynomial of
their differing bits is a multiple of the generator. No multiple fits into eight bits, and each has
an even number of terms.
-/

namespace TableWire.Crc8

open Polynomial

variable {xs ys : Bytes}

/-- One flag for each bit of two strings of one length, set where they differ. -/
def flipped (xs ys : Bytes) : List Bool := List.zipWith xor (bits xs) (bits ys)

/-- The strings differ, and only within eight bits on end, which may be those of two bytes. -/
def Burst (xs ys : Bytes) : Prop :=
  xs ≠ ys ∧ ∃ before window after,
    flipped xs ys = before ++ window ++ after ∧ window.length ≤ 8 ∧
      true ∉ before ∧ true ∉ after

theorem ofBits_flipped (h : xs.length = ys.length) :
    ofBits (flipped xs ys) = message xs + message ys :=
  ofBits_zipWith_xor (by rw [length_bits, length_bits, h])

theorem true_mem_flipped (h : xs.length = ys.length) (ne : xs ≠ ys) : true ∈ flipped xs ys := by
  induction xs generalizing ys with
  | nil => exact absurd (List.length_eq_zero_iff.mp h.symm).symm ne
  | cons x xs ih =>
    obtain ⟨y, ys, rfl⟩ := List.exists_cons_of_length_eq_add_one h.symm
    have first : flipped (x :: xs) (y :: ys) = byteBits (x ^^^ y) ++ flipped xs ys := by
      rw [byteBits_xor]
      exact List.zipWith_append rfl
    rw [first, List.mem_append]
    by_cases same : x = y
    · exact .inr (ih (by simpa using h) fun tails => ne (by rw [same, tails]))
    · refine .inl (Classical.not_not.mp fun even => same ?_)
      exact UInt8.xor_eq_zero_iff.mp (eq_zero_of_byteBits even)

theorem isCoprime_generator_X : IsCoprime generator X := by
  refine ⟨1, X ^ 7 + X + 1, ?_⟩
  have cancel (p : (ZMod 2)[X]) : p + p = 0 := CharTwo.add_self_eq_zero p
  rw [generator]
  linear_combination cancel (X ^ 8) + cancel (X ^ 2) + cancel X

theorem generator_dvd_mul_X_pow_iff {p : (ZMod 2)[X]} {n : Nat} :
    generator ∣ p * X ^ n ↔ generator ∣ p :=
  ⟨isCoprime_generator_X.pow_right.dvd_of_dvd_mul_right, fun h => h.mul_right _⟩

/-- The seed does not matter. -/
theorem fold_eq_iff (h : xs.length = ys.length) (seed : UInt8) :
    fold seed xs = fold seed ys ↔ generator ∣ ofBits (flipped xs ys) := by
  calc fold seed xs = fold seed ys
      ↔ residue (poly (fold seed xs)) = residue (poly (fold seed ys)) :=
        residue_poly_injective.eq_iff.symm
    _ ↔ generator ∣ (message xs + message ys) * X ^ 8 := by
        rw [residue_fold, residue_fold, h, residue_eq_iff, add_sub_add_left_eq_sub, ← sub_mul,
          CharTwo.sub_eq_add]
    _ ↔ generator ∣ ofBits (flipped xs ys) := by
        rw [generator_dvd_mul_X_pow_iff, ofBits_flipped h]

theorem not_generator_dvd_of_short {u : List Bool} (short : u.length ≤ 8) (some : true ∈ u) :
    ¬ generator ∣ ofBits u := by
  intro multiple
  have low : (ofBits u).degree < generator.degree := by
    rw [degree_generator]
    exact (degree_ofBits_lt u).trans_le (by exact_mod_cast short)
  exact ofBits_eq_zero_iff.mp (eq_zero_of_dvd_of_degree_lt multiple low) some

theorem not_generator_dvd_of_window {before window after : List Bool} (short : window.length ≤ 8)
    (left : true ∉ before) (right : true ∉ after) (some : true ∈ before ++ window ++ after) :
    ¬ generator ∣ ofBits (before ++ window ++ after) := by
  have inside : true ∈ window := by simpa [left, right] using some
  rw [ofBits_append, ofBits_append, ofBits_eq_zero_iff.mpr left, ofBits_eq_zero_iff.mpr right,
    zero_mul, zero_add, add_zero, generator_dvd_mul_X_pow_iff]
  exact not_generator_dvd_of_short short inside

/-- One is a root of the generator, and a polynomial takes there the parity of its terms. -/
theorem not_generator_dvd_of_odd {u : List Bool} (odd : Odd (u.count true)) :
    ¬ generator ∣ ofBits u := by
  rintro ⟨q, product⟩
  have root : generator.eval 1 = 0 := by
    rw [generator]
    simp
    decide
  have even : ((u.count true : ℕ) : ZMod 2) = 0 := by
    rw [← eval_one_ofBits, product, eval_mul, root, zero_mul]
  exact Nat.not_even_iff_odd.mpr odd ((ZMod.natCast_eq_zero_iff_even).mp even)

theorem fold_seed_bijective (bs : Bytes) : Function.Bijective fun seed => fold seed bs :=
  Finite.injective_iff_bijective.mp (fold_seed_injective bs)

/-- Folding is a division, so it may be cut anywhere, loses nothing of the seed, and tells every
burst and every odd number of flipped bits. -/
theorem fold_divides :
    (∀ seed bs, poly (fold seed bs) =
      (poly seed * X ^ (8 * bs.length) + message bs * X ^ 8) %ₘ generator) ∧
    (∀ seed as bs, fold seed (as ++ bs) = fold (fold seed as) bs) ∧
    (∀ bs, Function.Bijective fun seed => fold seed bs) ∧
    ∀ seed xs ys, xs.length = ys.length → Burst xs ys ∨ Odd ((flipped xs ys).count true) →
      fold seed xs ≠ fold seed ys := by
  refine ⟨poly_fold, fold_append, fold_seed_bijective, fun seed xs ys length damage alike => ?_⟩
  have multiple := (fold_eq_iff length seed).mp alike
  obtain ⟨ne, before, window, after, pattern, short, left, right⟩ | odd := damage
  · have some := true_mem_flipped length ne
    rw [pattern] at multiple some
    exact not_generator_dvd_of_window short left right some multiple
  · exact not_generator_dvd_of_odd odd multiple

theorem fold_divides_two_damages :
    Burst [0x75, 0x10, 0xff] [0x72, 0x50, 0xff] ∧
    fold 0x5a [0x75, 0x10, 0xff] ≠ fold 0x5a [0x72, 0x50, 0xff] ∧
    Odd ((flipped [0, 0, 0] [0x80, 0, 0x11]).count true) ∧
    fold 0x5a [0, 0, 0] ≠ fold 0x5a [0x80, 0, 0x11] := by
  obtain ⟨_, _, _, detects⟩ := fold_divides
  have burst : Burst [0x75, 0x10, 0xff] [0x72, 0x50, 0xff] :=
    ⟨by decide, List.replicate 5 false, [true, true, true, false, true], List.replicate 14 false,
      by decide +kernel, by decide, by decide, by decide⟩
  have odd : Odd ((flipped [0, 0, 0] [0x80, 0, 0x11]).count true) := by decide +kernel
  exact ⟨burst, detects _ _ _ rfl (.inl burst), odd, detects _ _ _ rfl (.inr odd)⟩

end TableWire.Crc8
