import TableWire.Proofs.Buffer.Grammar
import TableWire.Proofs.Row.Relocation
/-!
Rows behind other rows. Nothing that follows rows with a complete ending belongs to them, and what
follows is read as if it came first, with its places counted from further on.
-/

namespace TableWire.Buffer

open Scan

section Unlimited

variable {check : Bool}

theorem unlimited (read : Nat) : ({ verify := check } : DecodeOptions).maxRows ≠ some read := nofun

/-- Without a limit the number of rows read before does not count. -/
theorem moves_scanRowsFrom (n read read' : Nat) (c : Cursor) :
    MovesAt n id (scanRowsFrom { verify := check } read) (scanRowsFrom { verify := check } read')
      c := by
  induction c using rows_induction check generalizing read read' with
  | turn c ih =>
    rw [scanRowsFrom_eq (unlimited read), scanRowsFrom_eq (unlimited read')]
    refine (WireRow.moves_scan check c).bind fun row d next => ?_
    by_cases ended : d.rest = []
    · rw [MovesAt, scanBehind_of_ended ended, scanBehind_of_ended (d := d.move n) ended]
      rfl
    · rw [MovesAt, scanBehind_of_rest ended, scanBehind_of_rest (d := d.move n) ended]
      exact (ih row d next _ _).bind fun rows e _ => moves_pure id (row :: rows) e

/-- Behind rows, whatever they are followed by, the scan goes on. -/
theorem scanRowsFrom_append {fs : List Row.Form} (rows : Rows fs)
    (verified : check → ∀ f ∈ fs, f.Verified) {c d : Cursor} (span : c.Spans (rowsBytes fs) d)
    (some_rest : d.rest ≠ []) (read : Nat) :
    scanRowsFrom { verify := check } read c =
      (return fs.map (·.wire) ++
        (← scanRowsFrom { verify := check } (read + fs.length)) : Scan (List WireRow)) d := by
  induction fs generalizing c read with
  | nil => exact absurd rfl rows.some_row
  | cons f fs ih =>
    obtain ⟨e, span, span'⟩ := Cursor.spans_append.mp span
    have behind : e.rest = rowsBytes fs ++ d.rest := span'.rest
    have first : WireRow.scan check c = .ok f.wire e := by
      refine (WireRow.scan_reads check c _ e).mpr ⟨f, span, rfl, rows.some_part f (by simp), ?_, ?_⟩
      · exact behind ▸ rows.before_append d.rest
      · exact fun h => verified h f (by simp)
    have onward : e.rest ≠ [] := by simp [behind, some_rest]
    rw [scanRowsFrom_eq (unlimited read), bind_of_ok first, scanBehind_of_rest onward]
    rcases (rows_cons.mp rows).2 with rfl | others
    · obtain rfl := Cursor.spans_nil.mp span'
      rfl
    · rw [bind_of_eq (ih others (fun h x hx => verified h x (List.mem_cons_of_mem f hx)) span' _)]
      rw [List.length_cons, Nat.add_comm fs.length 1, ← Nat.add_assoc]
      exact congrFun (bind_assoc (m := Scan) _ _ _) d

theorem scan_start_header {o : DecodeOptions} {x : Bytes} :
    scan o (.start (word32 header.toNat ++ x)) = scanRowsFrom o 0 ⟨headerSize, x⟩ := by
  have start : scanHeader (.start (word32 header.toNat ++ x)) = .ok () ⟨headerSize, x⟩ :=
    scanHeader_eq_ok.mpr ⟨rfl, rfl⟩
  rw [scan_eq]
  exact bind_of_ok start

/-- Rows are read the same behind other rows, whatever they are, and so is a fault behind them, at a
place that counts their bytes too. -/
theorem decodeRows_append {x y : Bytes} {rows : List WireRow} (some_byte : y ≠ [])
    (accepted : (decodeRows { verify := check } (word32 header.toNat ++ x)).outcome = .ok rows) :
    (decodeRows { verify := check } (word32 header.toNat ++ (x ++ y))).outcome =
      ((decodeRows { verify := check } (word32 header.toNat ++ y)).outcome.map (rows ++ ·)).mapError
        (·.move x.length) := by
  obtain ⟨none, _⟩ | ⟨fs, written, verified, rfl⟩ := decodeRows_outcome_eq_ok.mp accepted
  · cases none
  · have bytes : x = rowsBytes fs := List.append_cancel_left written.bytes
    have span : Cursor.Spans ⟨headerSize, x ++ y⟩ (rowsBytes fs) (.move x.length ⟨headerSize, y⟩) :=
      bytes ▸ .mk_append _ _ _
    have moved : scanRowsFrom { verify := check } fs.length (.move x.length ⟨headerSize, y⟩) = _ :=
      moves_scanRowsFrom x.length 0 fs.length ⟨headerSize, y⟩
    rw [outcome_decodeRows (by simp [some_byte]), outcome_decodeRows (by simp [some_byte]),
      scan_start_header, scan_start_header,
      scanRowsFrom_append written.rows verified span some_byte, Nat.zero_add]
    cases run : scanRowsFrom { verify := check } 0 ⟨headerSize, y⟩ with
    | ok rows' d =>
      rw [run] at moved
      rw [bind_of_ok moved]
      rfl
    | error e d =>
      rw [run] at moved
      rw [bind_of_error moved]
      rfl

end Unlimited

theorem decodeRows_append_row_or_fault :
    let x : Bytes := [1, 3, 4, 1, 0, 0, 0, 97, 9, 174]
    let y : Bytes := [2, 3, 4, 1, 0, 0, 0, 98, 10, 41, 9, 19]
    let z : Bytes := [2, 3, 4, 1, 0, 0, 0, 98, 5, 1, 0, 0, 0, 4]
    let row : WireRow := { primaryKey := [⟨{ name := "a" }, none, 32⟩], stored := some 174 }
    let next : WireRow := { attributes := [⟨{ name := "b" }, some 41, 41⟩], stored := some 19 }
    (decodeRows { verify := true } (word32 header.toNat ++ x)).outcome = .ok [row] ∧
      y ≠ [] ∧ z ≠ [] ∧
      (decodeRows { verify := true } (word32 header.toNat ++ (x ++ y))).outcome =
        .ok [row, next] ∧
      (decodeRows { verify := true } (word32 header.toNat ++ z)).outcome =
        .error (.unknownValueType 4 17) ∧
      (decodeRows { verify := true } (word32 header.toNat ++ (x ++ z))).outcome =
        .error (.unknownValueType 4 27) := by
  intro x y z row next
  have accepted : (decodeRows { verify := true } (word32 header.toNat ++ x)).outcome =
      .ok [row] := by decide +kernel
  have followed : (decodeRows { verify := true } (word32 header.toNat ++ y)).outcome =
      .ok [next] := by decide +kernel
  have refused : (decodeRows { verify := true } (word32 header.toNat ++ z)).outcome =
      .error (.unknownValueType 4 17) := by decide +kernel
  refine ⟨accepted, by decide, by decide, ?_, refused, ?_⟩
  · rw [decodeRows_append (by decide) accepted, followed]
    rfl
  · rw [decodeRows_append (by decide) accepted, refused]
    rfl

end TableWire.Buffer
