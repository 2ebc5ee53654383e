import Mathlib.Logic.Function.Basic
import TableWire.Crc8
/-!
The check tells every change of one byte: each step of the division can be undone, so whatever is
folded behind the change keeps the two results apart.
-/

namespace TableWire

/-- One byte has been replaced by another. -/
def Altered (xs ys : Bytes) : Prop :=
  ∃ before x y after, x ≠ y ∧ xs = before ++ x :: after ∧ ys = before ++ y :: after

namespace Altered

variable {xs ys zs : Bytes}

theorem length_eq (h : Altered xs ys) : ys.length = xs.length := by
  obtain ⟨before, x, y, after, _, rfl, rfl⟩ := h
  simp

theorem ne_nil (h : Altered xs ys) : ys ≠ [] := by
  obtain ⟨before, x, y, after, _, rfl, rfl⟩ := h
  simp

theorem append_left (h : Altered xs ys) (zs : Bytes) : Altered (zs ++ xs) (zs ++ ys) := by
  obtain ⟨before, x, y, after, ne, rfl, rfl⟩ := h
  exact ⟨zs ++ before, x, y, after, ne, by simp, by simp⟩

theorem append_right (h : Altered xs ys) (zs : Bytes) : Altered (xs ++ zs) (ys ++ zs) := by
  obtain ⟨before, x, y, after, ne, rfl, rfl⟩ := h
  exact ⟨before, x, y, after ++ zs, ne, by simp, by simp⟩

theorem of_singleton {x : UInt8} (h : Altered [x] ys) : ∃ y, x ≠ y ∧ ys = [y] := by
  obtain ⟨before, x', y, after, ne, same, rfl⟩ := h
  cases before with
  | nil =>
    obtain ⟨rfl, rfl⟩ := List.cons.inj same
    exact ⟨y, ne, rfl⟩
  | cons b before => simp at same

/-- A byte that is set within a part alters this part alone. -/
theorem of_set {before part after : Bytes} {i : Nat} {y : UInt8} (start : before.length ≤ i)
    (stop : i < before.length + part.length) (ne : (before ++ (part ++ after))[i]? ≠ some y) :
    ∃ part', Altered part part' ∧
      (before ++ (part ++ after)).set i y = before ++ (part' ++ after) := by
  have inside : i - before.length < part.length := by omega
  have old : (before ++ (part ++ after))[i]? = some part[i - before.length] := by
    rw [List.getElem?_append_right start, List.getElem?_append_left inside,
      List.getElem?_eq_getElem inside]
  refine ⟨part.set (i - before.length) y, ⟨part.take (i - before.length), part[i - before.length],
    y, part.drop (i - before.length + 1), ?_, by simp, List.set_eq_take_append_cons_drop.trans ?_⟩,
    ?_⟩
  · exact fun same => ne (old.trans (congrArg some same))
  · rw [if_pos inside]
  · rw [List.set_append_right _ _ start, List.set_append_left _ _ inside]

end Altered

namespace Crc8

/-- Undoes a step: the low bit tells whether the polynomial has been taken. -/
def unshift (x : UInt8) : UInt8 :=
  if x &&& 0x01 = 0 then x >>> 1 else (x ^^^ 0x07) >>> 1 ||| 0x80

theorem unshift_shift (x : UInt8) : unshift (shift x) = x := by
  have all : ∀ n : Fin 256, unshift (shift (UInt8.ofFin n)) = UInt8.ofFin n := by decide +kernel
  exact all x.toFin

theorem shift_injective : Function.Injective shift :=
  Function.LeftInverse.injective unshift_shift

theorem shifts_injective (n : Nat) : Function.Injective (shifts n) := by
  induction n with
  | zero => exact Function.injective_id
  | succ n ih => exact ih.comp shift_injective

theorem add_seed_injective (b : UInt8) : Function.Injective fun seed => add seed b :=
  fun _ _ same => UInt8.xor_left_inj b |>.mp (shifts_injective 8 same)

theorem add_injective (seed : UInt8) : Function.Injective (add seed) :=
  fun _ _ same => UInt8.xor_right_inj seed |>.mp (shifts_injective 8 same)

theorem fold_seed_injective (bs : Bytes) : Function.Injective fun seed => fold seed bs := by
  induction bs with
  | nil => exact Function.injective_id
  | cons b bs ih => exact ih.comp (add_seed_injective b)

theorem fold_ne_of_altered {xs ys : Bytes} (h : Altered xs ys) (seed : UInt8) :
    fold seed ys ≠ fold seed xs := by
  obtain ⟨before, x, y, after, ne, rfl, rfl⟩ := h
  rw [fold_append, fold_append, fold_cons, fold_cons]
  exact fun same => ne (add_injective _ (fold_seed_injective after same)).symm

end Crc8

end TableWire
