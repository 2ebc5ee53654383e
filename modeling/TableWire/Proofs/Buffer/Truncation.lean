import TableWire.Proofs.Buffer.Grammar
import TableWire.Proofs.Row.Incremental
/-!
Buffers that are cut short. What is left holds the first of the rows when it ends with the checksum
of a row, and is refused for want of bytes otherwise.
-/

namespace TableWire.Buffer

open Scan

theorem incremental_scanHeader : scanHeader.Incremental := by
  refine incremental_word32.bind fun found => ?_
  split
  · exact incremental_fail _
  · exact .pure _

/-- Rows that are read from longer input are read, or end for want of bytes. Behind a row the end of
the input is no fault, so fewer rows may be read. -/
theorem scanRowsFrom_of_extend {o : DecodeOptions} {read : Nat} {c d : Cursor} {more : Bytes}
    {rows : List WireRow} (run : scanRowsFrom o read (c.extend more) = .ok rows d) :
    Starved (scanRowsFrom o read c) ∨ ∃ rows' d', scanRowsFrom o read c = .ok rows' d' := by
  induction rows generalizing read c with
  | nil => obtain ⟨_, _, _, _, _, ⟨⟩, _⟩ := scanRowsFrom_eq_ok.mp run
  | cons row rows ih =>
    obtain ⟨room, _, _, _, next, ⟨⟩, onward⟩ := scanRowsFrom_eq_ok.mp run
    rw [scanRowsFrom_eq room]
    rcases (WireRow.incremental_scan o.verify c).of_extend_eq_ok next with
      ⟨_, _, _, _, failed⟩ | ⟨e, next', rfl⟩
    · exact .inl ⟨_, _, _, _, bind_of_error failed⟩
    · rw [bind_of_ok next']
      by_cases ended : e.rest = []
      · exact .inr ⟨_, _, scanBehind_of_ended ended⟩
      · rw [if_neg (by simp [ended])] at onward
        rw [scanBehind_of_rest ended]
        rcases ih onward with ⟨_, _, _, _, failed⟩ | ⟨rows', d', more⟩
        · exact .inl ⟨_, _, _, _, bind_of_error failed⟩
        · exact .inr ⟨_, _, bind_of_ok more⟩

theorem scan_of_extend {o : DecodeOptions} {c d : Cursor} {more : Bytes} {rows : List WireRow}
    (run : scan o (c.extend more) = .ok rows d) :
    Starved (scan o c) ∨ ∃ rows' d', scan o c = .ok rows' d' := by
  rw [scan_eq] at run ⊢
  obtain ⟨_, _, start, run⟩ := bind_eq_ok.mp run
  rcases (incremental_scanHeader c).of_extend_eq_ok start with
    ⟨_, _, _, _, failed⟩ | ⟨e, start', rfl⟩
  · exact .inl ⟨_, _, _, _, bind_of_error failed⟩
  · rw [bind_of_ok start']
    exact scanRowsFrom_of_extend run

/-- What is left of a buffer that is accepted is accepted, or ends for want of bytes. -/
theorem decodeRows_of_append {o : DecodeOptions} {p more : Bytes} {rows : List WireRow}
    (accepted : (decodeRows o (p ++ more)).outcome = .ok rows) :
    (∃ offset needed remaining,
      (decodeRows o p).outcome = .error (.truncated offset needed remaining)) ∨
    ∃ rows', (decodeRows o p).outcome = .ok rows' := by
  cases p with
  | nil => exact .inr ⟨[], rfl⟩
  | cons x p =>
    simp only [decodeRows_outcome, List.cons_append, List.isEmpty_cons, Bool.false_eq_true,
      if_false] at accepted ⊢
    cases long : scan o (.start (x :: (p ++ more))) with
    | error e d => simp [long] at accepted
    | ok rows' d =>
      have long' : scan o ((Cursor.start (x :: p)).extend more) = .ok rows' d := long
      rcases scan_of_extend long' with ⟨d, o, n, r, failed⟩ | ⟨rows', d', run⟩
      · simp [failed]
      · simp [run]

/-- The bytes end right behind the checksum of the last of the first `k` rows. -/
def EndsBehind (fs : List Row.Form) (k : Nat) (p : Bytes) : Prop :=
  (∀ f ∈ (fs.take k).getLast?, f.stored.isSome) ∧
    p = word32 header.toNat ++ rowsBytes (fs.take k)

theorem Written.take {fs : List Row.Form} {b p : Bytes} {k : Nat} (h : Written fs b) (hk : 1 ≤ k)
    (ends : EndsBehind fs k p) : Written (fs.take k) p where
  rows := {
    some_row := by simpa [h.rows.some_row] using Nat.ne_of_gt hk
    some_part := fun f hf => h.rows.some_part f (List.mem_of_mem_take hf)
    separated := h.rows.separated.take k
    sealed := ends.1 }
  bytes := ends.2

/-- Rows that fill a part of a buffer are its first ones, and are followed by others. -/
theorem Written.of_append {fs gs : List Row.Form} {p more : Bytes} (h : Written fs (p ++ more))
    (some_more : more ≠ []) (hg : Written gs p) :
    ∃ k, 1 ≤ k ∧ k < fs.length ∧ gs = fs.take k ∧ EndsBehind fs k p := by
  have same : rowsBytes fs = rowsBytes gs ++ more := by
    have bytes := h.bytes
    rw [hg.bytes, List.append_assoc] at bytes
    exact (List.append_cancel_left bytes).symm
  obtain ⟨others, rfl⟩ := h.rows.prefix_of_bytes hg.rows same
  have some_other : others ≠ [] := by
    rintro rfl
    simp [some_more] at same
  refine ⟨gs.length, List.length_pos_iff.mpr hg.rows.some_row, ?_, by simp, ?_, ?_⟩
  · simpa using List.length_pos_iff.mpr some_other
  · simpa using hg.rows.sealed
  · simpa using hg.bytes

/-- A buffer cut short within its rows ends for want of bytes, and one cut behind the checksum of a
row, which is not the last, holds the rows up to there. -/
theorem decodeRows_prefix {check : Bool} {b p : Bytes} {rows : List WireRow}
    (accepted : (decodeRows { verify := check } b).outcome = .ok rows) (cut : p <+: b)
    (some_byte : p ≠ []) (shorter : p ≠ b) :
    ∃ fs, Written fs b ∧ fs.map (·.wire) = rows ∧
      ((∃ offset needed remaining, (decodeRows { verify := check } p).outcome =
          .error (.truncated offset needed remaining)) ∨
        ∃ k, 1 ≤ k ∧ k < rows.length ∧
          (decodeRows { verify := check } p).outcome = .ok (rows.take k)) ∧
      ∀ k, 1 ≤ k → k < rows.length →
        ((decodeRows { verify := check } p).outcome = .ok (rows.take k) ↔ EndsBehind fs k p) := by
  obtain ⟨more, rfl⟩ := cut
  have some_more : more ≠ [] := by
    rintro rfl
    simp at shorter
  obtain ⟨none, _⟩ | ⟨fs, written, verified, rfl⟩ := decodeRows_outcome_eq_ok.mp accepted
  · exact absurd (List.append_eq_nil_iff.mp none).1 some_byte
  have first {rows' : List WireRow}
      (run : (decodeRows { verify := check } p).outcome = .ok rows') :
      ∃ k, 1 ≤ k ∧ k < fs.length ∧ rows' = (fs.map (·.wire)).take k ∧ EndsBehind fs k p := by
    obtain ⟨none, _⟩ | ⟨gs, hg, _, rfl⟩ := decodeRows_outcome_eq_ok.mp run
    · exact absurd none some_byte
    · obtain ⟨k, hk, lt, rfl, ends⟩ := written.of_append some_more hg
      exact ⟨k, hk, lt, by rw [List.map_take], ends⟩
  refine ⟨fs, written, rfl, ?_, fun k hk lt => ⟨fun run => ?_, fun ends => ?_⟩⟩
  · refine (decodeRows_of_append accepted).imp_right fun ⟨rows', run⟩ => ?_
    obtain ⟨k, hk, lt, rfl, _⟩ := first run
    exact ⟨k, hk, by simpa using lt, run⟩
  · obtain ⟨j, _, lt', same, ends⟩ := first run
    have lengths := congrArg List.length same
    simp only [List.length_take, List.length_map] at lengths lt
    obtain rfl : k = j := by omega
    exact ends
  · refine decodeRows_outcome_eq_ok.mpr
      (.inr ⟨fs.take k, written.take hk ends, fun h f hf => ?_, ?_⟩)
    · exact verified h f (List.mem_of_mem_take hf)
    · rw [List.map_take]

theorem decodeRows_prefix_first_row :
    let b : Bytes := [0x75, 0, 0, 0, 1, 3, 4, 1, 0, 0, 0, 97, 9, 174,
      2, 3, 4, 1, 0, 0, 0, 98, 10, 41, 9, 19]
    let p := b.take 14
    let rows : List WireRow := [{ primaryKey := [⟨{ name := "a" }, none, 32⟩], stored := some 174 },
      { attributes := [⟨{ name := "b" }, some 41, 41⟩], stored := some 19 }]
    (decodeRows { verify := true } b).outcome = .ok rows ∧ p <+: b ∧ p ≠ [] ∧ p ≠ b ∧
      ∃ fs, Written fs b ∧ fs.map (·.wire) = rows ∧
        ((∃ offset needed remaining, (decodeRows { verify := true } p).outcome =
            .error (.truncated offset needed remaining)) ∨
          ∃ k, 1 ≤ k ∧ k < rows.length ∧
            (decodeRows { verify := true } p).outcome = .ok (rows.take k)) ∧
        ∀ k, 1 ≤ k → k < rows.length →
          ((decodeRows { verify := true } p).outcome = .ok (rows.take k) ↔ EndsBehind fs k p) := by
  intro b p rows
  have accepted : (decodeRows { verify := true } b).outcome = .ok rows := by decide +kernel
  have cut : p <+: b := List.take_prefix 14 b
  have some_byte : p ≠ [] := by decide
  have shorter : p ≠ b := by decide
  exact ⟨accepted, cut, some_byte, shorter,
    decodeRows_prefix accepted cut some_byte shorter⟩

end TableWire.Buffer
