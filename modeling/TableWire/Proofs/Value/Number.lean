import TableWire.Filter.Binding
import TableWire.Proofs.Value.Double
import TableWire.Row.Cell
/-!
Numbers as values. A number becomes an integer exactly when its bits stand for one of 64 bits, and
keeps them otherwise: `Value.ofDouble_exact`.
-/

namespace TableWire

namespace Value

variable {d : Double}

/-- The value is the integer that the bits of a number stand for, if they stand for one of 64 bits,
and else these bits themselves. -/
def Exact (d : Double) (v : Value) : Prop :=
  (∀ n : ℤ, (∃ k : Int64, k.toInt = n ∧ v = .int k) ↔ -2 ^ 63 ≤ n ∧ n < 2 ^ 63 ∧ d.Denotes n) ∧
  (v = .double d ↔ ¬ ∃ n : ℤ, -2 ^ 63 ≤ n ∧ n < 2 ^ 63 ∧ d.Denotes n)

theorem ofDouble_of_denotes {n : ℤ} (low : -2 ^ 63 ≤ n) (high : n < 2 ^ 63) (h : d.Denotes n) :
    ofDouble d = .int (Int64.ofInt n) := by
  have finite := (Double.denotes_iff.mp h).1
  have whole : d.fract.equal .zero := (Double.fract_equal_zero_iff finite).mpr ⟨n, h⟩
  have above : Double.integerBound.neg.le d :=
    (Double.le_iff Double.denotes_neg_integerBound h).mpr (by exact_mod_cast low)
  have below : d.lt .integerBound :=
    (Double.lt_iff h Double.denotes_integerBound).mpr (by exact_mod_cast high)
  rw [ofDouble, finite, whole, above, below, Double.toInt64_of_denotes low high h]
  rfl

theorem ofDouble_of_not_denotes (h : ¬ ∃ n : ℤ, -2 ^ 63 ≤ n ∧ n < 2 ^ 63 ∧ d.Denotes n) :
    ofDouble d = .double d := by
  refine if_neg fun passed => h ?_
  simp only [Bool.and_eq_true] at passed
  obtain ⟨⟨⟨finite, whole⟩, above⟩, below⟩ := passed
  obtain ⟨n, denotes⟩ := (Double.fract_equal_zero_iff finite).mp whole
  refine ⟨n, ?_, ?_, denotes⟩
  · exact_mod_cast (Double.le_iff Double.denotes_neg_integerBound denotes).mp above
  · exact_mod_cast (Double.lt_iff denotes Double.denotes_integerBound).mp below

theorem exact_ofDouble (d : Double) : Exact d (ofDouble d) := by
  by_cases h : ∃ n : ℤ, -2 ^ 63 ≤ n ∧ n < 2 ^ 63 ∧ d.Denotes n
  · obtain ⟨m, low, high, denotes⟩ := h
    have found := ofDouble_of_denotes low high denotes
    refine ⟨fun n => ⟨?_, fun ⟨low, high, denotes⟩ => ?_⟩, ?_⟩
    · rintro ⟨k, rfl, same⟩
      rw [found, Value.int.injEq] at same
      rw [← same, Int64.toInt_ofInt_of_le low high]
      exact ⟨low, high, denotes⟩
    · exact ⟨_, Int64.toInt_ofInt_of_le low high, ofDouble_of_denotes low high denotes⟩
    · exact iff_of_false (found ▸ nofun) (not_not.mpr ⟨m, low, high, denotes⟩)
  · have kept := ofDouble_of_not_denotes h
    refine ⟨fun n => ⟨?_, fun denotes => absurd ⟨n, denotes⟩ h⟩, ?_⟩
    · rintro ⟨k, _, same⟩
      rw [kept] at same
      cases same
    · exact iff_of_true kept h

/-- Numbers are classified by what their bits stand for, also where they are put into a cell or
bound to a parameter. The two zeros are one integer. -/
theorem ofDouble_exact :
    (∀ d, Exact d (ofDouble d)) ∧
    (∀ name d, ∃ v, (Cell.put name (ofDouble d)).value = some v ∧ Exact d v) ∧
    (∀ (b : Bindings) name d, ∃ v, (b.insert name (ofDouble d)).get? name = some v ∧ Exact d v) ∧
    ofDouble ⟨0⟩ = .int 0 ∧ ofDouble ⟨0x8000000000000000⟩ = .int 0 := by
  refine ⟨exact_ofDouble, fun name d => ⟨_, rfl, exact_ofDouble d⟩, fun b name d => ?_, ?_, ?_⟩
  · exact ⟨_, by simp [Dictionary.get?_insert], exact_ofDouble d⟩
  · decide
  · decide

example : ofDouble ⟨0xc3e0000000000000⟩ = .int Int64.minValue ∧
    ofDouble ⟨0x43e0000000000000⟩ = .double ⟨0x43e0000000000000⟩ := by decide

end Value

end TableWire
