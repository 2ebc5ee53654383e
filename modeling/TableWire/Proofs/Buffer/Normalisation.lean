import TableWire.Proofs.Buffer.RoundTrip
import TableWire.Proofs.Row.Normal
/-!
Writing again what has been read. The outcome holds the same rows and does not change any more, and
it is the buffer that was read exactly when all rows of this have normal forms.
-/

namespace TableWire.Buffer

variable {b b' : Bytes} {rows : List WireRow}

/-- Reading a written buffer and writing its rows again gives the same buffer. -/
theorem decodeRows_of_encode {written : List Row} (some_row : written ≠ [])
    (encoded : encode written = .ok b) (check : Bool) :
    ∃ rows, (decodeRows { verify := check } b).outcome = .ok rows ∧
      rows.map (·.row) = written ∧ encode (rows.map (·.row)) = .ok b := by
  obtain ⟨fs, _, content, run⟩ := exists_forms_of_encode some_row encoded check
  have same : (fs.map (·.wire)).map (·.row) = written := by
    rw [List.map_map]
    exact content
  exact ⟨fs.map (·.wire), run, same, same ▸ encoded⟩

/-- Rows of a buffer that has all checksums right are written as they stand when they are normal. -/
theorem encode_eq_iff_normal {fs : List Row.Form} (written : Written fs b)
    (verified : ∀ f ∈ fs, f.Verified) (encoded : encode (fs.map (·.wire.row)) = .ok b') :
    b' = b ↔ ∀ f ∈ fs, f.Normal := by
  obtain ⟨gs, canonical, content, rfl⟩ := encode_eq_ok.mp encoded
  constructor
  · intro same
    rw [written.bytes] at same
    have some_row : gs ≠ [] := by
      rintro rfl
      exact written.rows.some_row (List.map_eq_nil_iff.mp content.symm)
    obtain rfl : gs = fs := (rows_of_canonical some_row canonical).ext_of_bytes written.rows
      (List.append_cancel_left same)
    exact fun f hf => (canonical f hf).normal
  · intro normal
    have same : fs = gs := by
      refine eq_of_map_eq (p := fun f => f.Normal ∧ f.Verified) ?_ ?_ ?_ content.symm
      · exact fun f g hf hg => hf.1.ext hg.1 hf.2 hg.2
      · exact fun f hf => ⟨normal f hf, verified f hf⟩
      · exact fun g hg => ⟨(canonical g hg).normal, (canonical g hg).verified⟩
    rw [written.bytes, same]

/-- Writing again what has been read with verification normalises it: the rows stay the same, a
second time changes nothing, and the first time changes nothing about rows with all their checksums,
without empty groups and with booleans of zero and one. Rows without cells cannot be written. -/
theorem decodeRows_normalises (some_byte : b ≠ [])
    (accepted : (decodeRows { verify := true } b).outcome = .ok rows)
    (encoded : encode (rows.map (·.row)) = .ok b') :
    (∀ check, ∃ rows', (decodeRows { verify := check } b').outcome = .ok rows' ∧
      rows'.map (·.row) = rows.map (·.row) ∧ encode (rows'.map (·.row)) = .ok b') ∧
    ∃ fs, Written fs b ∧ fs.map (·.wire) = rows ∧ (b' = b ↔ ∀ f ∈ fs, f.Normal) := by
  obtain ⟨none, _⟩ | ⟨fs, written, verified, rfl⟩ := decodeRows_outcome_eq_ok.mp accepted
  · exact absurd none some_byte
  · refine ⟨decodeRows_of_encode ?_ encoded, fs, written, rfl, ?_⟩
    · simpa using written.rows.some_row
    · rw [List.map_map] at encoded
      exact encode_eq_iff_normal written (verified rfl) encoded

theorem decodeRows_normalises_loose_row :
    let b : Bytes := [0x75, 0, 0, 0, 1, 3, 4, 1, 0, 0, 0, 97, 5, 2, 0, 0, 0, 2, 7, 2, 9, 244]
    let b' : Bytes := [0x75, 0, 0, 0, 1, 3, 4, 1, 0, 0, 0, 97, 5, 2, 0, 0, 0, 2, 1, 10, 131, 9, 137]
    let rows : List WireRow :=
      [{ primaryKey := [⟨.put "a" (.bool true), none, 145⟩], stored := some 244 }]
    b ≠ [] ∧ (decodeRows { verify := true } b).outcome = .ok rows ∧
      encode (rows.map (·.row)) = .ok b' ∧
      (∃ rows', (decodeRows { verify := true } b').outcome = .ok rows' ∧
        rows'.map (·.row) = rows.map (·.row) ∧ encode (rows'.map (·.row)) = .ok b') ∧
      ∃ fs, Written fs b ∧ fs.map (·.wire) = rows ∧ ¬ ∀ f ∈ fs, f.Normal := by
  intro b b' rows
  have accepted : (decodeRows { verify := true } b).outcome = .ok rows := by decide +kernel
  have encoded : encode (rows.map (·.row)) = .ok b' := by decide +kernel
  obtain ⟨again, fs, written, content, normal⟩ := decodeRows_normalises (by decide) accepted encoded
  exact ⟨by decide, accepted, encoded, again true, fs, written, content,
    normal.not.mp (by decide)⟩

end TableWire.Buffer
