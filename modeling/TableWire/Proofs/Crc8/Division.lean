import Mathlib.Algebra.Field.ZMod
import Mathlib.RingTheory.AdjoinRoot
import TableWire.Crc8
/-!
The check as a division. Bytes are polynomials over the field of two elements, with the highest bit
at the highest power. What is left of a folded string is its remainder by the generator, where the
seed stands before the string and the string is moved up by the width of the register:
`poly_fold`.
-/

namespace TableWire.Crc8

open Polynomial

/-- The bits of a byte, the highest first. -/
def byteBits (b : UInt8) : List Bool := [7, 6, 5, 4, 3, 2, 1, 0].map b.toNat.testBit

def bits (bs : Bytes) : List Bool := bs.flatMap byteBits

/-- The coefficients are given from the highest power down. -/
noncomputable def ofBits : List Bool → (ZMod 2)[X]
  | [] => 0
  | b :: u => (if b then X ^ u.length else 0) + ofBits u

noncomputable def poly (b : UInt8) : (ZMod 2)[X] := ofBits (byteBits b)

noncomputable def message (bs : Bytes) : (ZMod 2)[X] := ofBits (bits bs)

noncomputable def generator : (ZMod 2)[X] := X ^ 8 + X ^ 2 + X + 1

section Coefficients

theorem ofBits_append (u v : List Bool) : ofBits (u ++ v) = ofBits u * X ^ v.length + ofBits v := by
  induction u with
  | nil => simp [ofBits]
  | cons b u ih =>
    simp only [List.cons_append, ofBits, List.length_append, ih, pow_add]
    cases b
    · simp
    · simp
      ring

theorem ofBits_zipWith_xor {u v : List Bool} (h : u.length = v.length) :
    ofBits (List.zipWith xor u v) = ofBits u + ofBits v := by
  induction u generalizing v with
  | nil =>
    obtain rfl := List.length_eq_zero_iff.mp h.symm
    simp [ofBits]
  | cons b u ih =>
    obtain ⟨c, v, rfl⟩ := List.exists_cons_of_length_eq_add_one h.symm
    have same : u.length = v.length := by simpa using h
    have coefficient : (if xor b c then X ^ v.length else 0 : (ZMod 2)[X]) =
        (if b then X ^ v.length else 0) + if c then X ^ v.length else 0 := by
      cases b <;> cases c <;> simp [CharTwo.add_self_eq_zero]
    simp only [List.zipWith_cons_cons, ofBits, ih same, List.length_zipWith, same, min_self,
      coefficient]
    ring

theorem degree_ofBits_lt (u : List Bool) : (ofBits u).degree < u.length := by
  induction u with
  | nil => simp [ofBits]
  | cons b u ih =>
    have wider : (u.length : WithBot ℕ) < (b :: u).length := by
      exact_mod_cast Nat.lt_succ_self u.length
    refine (degree_add_le _ _).trans_lt (max_lt ?_ (ih.trans wider))
    cases b
    · simp
    · simpa using wider

theorem ofBits_eq_zero_iff {u : List Bool} : ofBits u = 0 ↔ true ∉ u := by
  induction u with
  | nil => simp [ofBits]
  | cons b u ih =>
    cases b with
    | false => simp [ofBits, ih]
    | true =>
      have degree : (ofBits (true :: u)).degree = u.length := by
        rw [ofBits, if_pos rfl, degree_add_eq_left_of_degree_lt, degree_X_pow]
        simpa using degree_ofBits_lt u
      have : ofBits (true :: u) ≠ 0 := fun zero => by simp [zero] at degree
      simpa using this

theorem eval_one_ofBits (u : List Bool) : (ofBits u).eval 1 = u.count true := by
  induction u with
  | nil => simp [ofBits]
  | cons b u ih => cases b <;> simp [ofBits, ih, add_comm]

end Coefficients

section Bytes

theorem length_bits (bs : Bytes) : (bits bs).length = 8 * bs.length := by
  simp [bits, byteBits, Nat.mul_comm]

theorem byteBits_xor (x y : UInt8) :
    byteBits (x ^^^ y) = List.zipWith xor (byteBits x) (byteBits y) := by
  simp only [byteBits, UInt8.toNat_xor, List.map_cons, List.map_nil, Nat.testBit_xor,
    List.zipWith_cons_cons, List.zipWith_nil_left]

theorem eq_zero_of_byteBits {x : UInt8} (h : true ∉ byteBits x) : x = 0 := by
  have all : ∀ n : Fin 256, true ∉ byteBits (UInt8.ofFin n) → UInt8.ofFin n = 0 := by
    decide +kernel
  exact all x.toFin h

theorem byteBits_append_false (x : UInt8) :
    byteBits x ++ [false] = (x &&& 0x80 ≠ 0 : Bool) :: byteBits (x <<< 1) := by
  have all : ∀ n : Fin 256, byteBits (UInt8.ofFin n) ++ [false] =
      (UInt8.ofFin n &&& 0x80 ≠ 0 : Bool) :: byteBits (UInt8.ofFin n <<< 1) := by
    decide +kernel
  exact all x.toFin

theorem poly_xor (x y : UInt8) : poly (x ^^^ y) = poly x + poly y := by
  have length : (byteBits x).length = (byteBits y).length := rfl
  rw [poly, byteBits_xor, ofBits_zipWith_xor length]
  rfl

theorem poly_injective : Function.Injective poly := by
  intro x y same
  have cancelled : poly (x ^^^ y) = 0 := by rw [poly_xor, same, CharTwo.add_self_eq_zero]
  exact UInt8.xor_eq_zero_iff.mp (eq_zero_of_byteBits (ofBits_eq_zero_iff.mp cancelled))

theorem degree_poly_lt (x : UInt8) : (poly x).degree < 8 := degree_ofBits_lt (byteBits x)

theorem message_cons (b : UInt8) (bs : Bytes) :
    message (b :: bs) = poly b * X ^ (8 * bs.length) + message bs := by
  rw [message, bits, List.flatMap_cons, ← bits, ofBits_append, length_bits]
  rfl

end Bytes

section Residues

theorem monic_generator : generator.Monic := by
  unfold generator
  monicity!

theorem degree_generator : generator.degree = 8 := by
  unfold generator
  compute_degree!

/-- The residue class of a polynomial modulo the generator. -/
noncomputable def residue : (ZMod 2)[X] →+* AdjoinRoot generator := AdjoinRoot.mk generator

theorem residue_eq_iff {p q : (ZMod 2)[X]} : residue p = residue q ↔ generator ∣ p - q :=
  AdjoinRoot.mk_eq_mk

/-- A register holds the only polynomial of its class that has so low a degree. -/
theorem modByMonic_eq_poly_iff {p : (ZMod 2)[X]} {x : UInt8} :
    p %ₘ generator = poly x ↔ residue p = residue (poly x) := by
  have low : poly x %ₘ generator = poly x :=
    (modByMonic_eq_self_iff monic_generator).mpr (degree_generator ▸ degree_poly_lt x)
  rw [residue_eq_iff, ← modByMonic_eq_zero_iff_dvd monic_generator, sub_modByMonic, low,
    sub_eq_zero]

theorem residue_poly_injective : Function.Injective fun x => residue (poly x) := by
  intro x y same
  have left : poly x %ₘ generator = poly x := modByMonic_eq_poly_iff.mpr rfl
  exact poly_injective (left.symm.trans (modByMonic_eq_poly_iff.mpr same))

theorem X_pow_eight : X ^ 8 = generator + poly 0x07 := by
  have cancel (p : (ZMod 2)[X]) : p + p = 0 := CharTwo.add_self_eq_zero p
  have set : byteBits 0x07 = [false, false, false, false, false, true, true, true] := by decide
  have low : poly 0x07 = X ^ 2 + X + 1 := by simp [poly, set, ofBits, add_assoc]
  rw [low, generator]
  linear_combination -cancel (X ^ 2) - cancel X - cancel 1

/-- A step multiplies by the power next to one, and takes the generator away if it can. -/
theorem X_mul_poly (x : UInt8) :
    X * poly x = (if x &&& 0x80 = 0 then 0 else generator) + poly (shift x) := by
  have moved : X * poly x = ofBits (byteBits x ++ [false]) := by
    simp [poly, ofBits_append, ofBits, mul_comm]
  have length : (byteBits (x <<< 1)).length = 8 := rfl
  rw [moved, byteBits_append_false, ofBits, ← poly, shift, length]
  by_cases low : x &&& 0x80 = 0
  · simp [low]
  · simp only [low, decide_true, not_false_eq_true, if_true, if_false, ne_eq]
    rw [poly_xor, X_pow_eight]
    ring

theorem residue_shift (x : UInt8) : residue (poly (shift x)) = residue (X * poly x) := by
  have vanishes : residue (if x &&& 0x80 = 0 then 0 else generator) = 0 := by
    split
    · exact map_zero _
    · exact AdjoinRoot.mk_self
  rw [X_mul_poly, map_add, vanishes, zero_add]

theorem residue_shifts (n : Nat) (x : UInt8) :
    residue (poly (shifts n x)) = residue (X ^ n * poly x) := by
  induction n generalizing x with
  | zero => simp [shifts]
  | succ n ih =>
    calc residue (poly (shifts (n + 1) x))
        = residue (X ^ n * poly (shift x)) := ih (shift x)
      _ = residue (X ^ n) * residue (X * poly x) := by rw [map_mul, residue_shift]
      _ = residue (X ^ (n + 1) * poly x) := by rw [← map_mul, pow_succ, mul_assoc]

theorem residue_add (seed b : UInt8) :
    residue (poly (add seed b)) = residue (X ^ 8 * (poly seed + poly b)) := by
  rw [add, residue_shifts, poly_xor]

theorem residue_fold (seed : UInt8) (bs : Bytes) :
    residue (poly (fold seed bs)) =
      residue (poly seed * X ^ (8 * bs.length) + message bs * X ^ 8) := by
  induction bs generalizing seed with
  | nil => simp [message, bits, ofBits]
  | cons b bs ih =>
    have regrouped : X ^ 8 * (poly seed + poly b) * X ^ (8 * bs.length) + message bs * X ^ 8 =
        poly seed * X ^ (8 * (b :: bs).length) + message (b :: bs) * X ^ 8 := by
      rw [message_cons, List.length_cons]
      ring
    rw [fold_cons, ih, map_add, map_mul, residue_add, ← map_mul, ← map_add, regrouped]

end Residues

theorem poly_fold (seed : UInt8) (bs : Bytes) :
    poly (fold seed bs) =
      (poly seed * X ^ (8 * bs.length) + message bs * X ^ 8) %ₘ generator :=
  (modByMonic_eq_poly_iff.mpr (residue_fold seed bs).symm).symm

end TableWire.Crc8
