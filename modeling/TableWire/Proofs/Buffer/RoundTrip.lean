import TableWire.Proofs.Buffer.Grammar
import TableWire.Proofs.Row.Canonical
/-!
Reading a buffer that has been written gives back its rows. Both sides meet at the canonical forms:
a writer chooses them, and they are rows of the grammar because each ends with a checksum.
-/

namespace TableWire.Buffer

theorem emitRows_eq_ok {rows : List Row} {out out' : Array UInt8} {u : Unit} :
    emitRows rows out = .ok u out' ↔
      ∃ fs : List Row.Form, (∀ f ∈ fs, f.Canonical) ∧ fs.map (·.wire.row) = rows ∧
        out' = out ++ rowsBytes fs := by
  induction rows generalizing out with
  | nil =>
    rw [emitRows, Emit.pure_eq_ok]
    constructor
    · rintro ⟨rfl, rfl⟩
      exact ⟨[], nofun, rfl, Array.appendList_nil.symm⟩
    · rintro ⟨fs, _, none, rfl⟩
      obtain rfl := List.map_eq_nil_iff.mp none
      exact ⟨rfl, Array.appendList_nil⟩
  | cons r rows ih =>
    rw [emitRows]
    simp only [Emit.bind_eq_ok, Emit.discard_eq_ok, Row.emit_eq_ok, ih]
    constructor
    · rintro ⟨_, _, ⟨_, f, hf, rfl, _, rfl⟩, fs, hfs, rfl, rfl⟩
      exact ⟨f :: fs, List.forall_mem_cons.mpr ⟨hf, hfs⟩, rfl, Emit.append_append _ _ _⟩
    · rintro ⟨fs, canonical, content, rfl⟩
      obtain ⟨f, fs, rfl, rfl, rfl⟩ := List.map_eq_cons_iff.mp content
      obtain ⟨hf, hfs⟩ := List.forall_mem_cons.mp canonical
      exact ⟨(), _, ⟨_, f, hf, rfl, rfl, rfl⟩, fs, hfs, rfl, (Emit.append_append _ _ _).symm⟩

theorem encode_eq_ok {rows : List Row} {b : Bytes} :
    encode rows = .ok b ↔
      ∃ fs : List Row.Form, (∀ f ∈ fs, f.Canonical) ∧ fs.map (·.wire.row) = rows ∧
        b = word32 header.toNat ++ rowsBytes fs := by
  simp only [encode, Emit.output_eq_ok, emit, Emit.bind_eq_ok, Emit.bytes_eq_ok, emitRows_eq_ok]
  constructor
  · rintro ⟨_, _, _, rfl, fs, canonical, content, written⟩
    exact ⟨fs, canonical, content, by simpa using written⟩
  · rintro ⟨fs, canonical, content, rfl⟩
    exact ⟨(), (), _, rfl, fs, canonical, content, by simp⟩

/-- No part of a row comes behind its checksum. -/
theorem separated_of_stored {f g : Row.Form} (h : f.stored.isSome) : Separated f g := by
  intro s hs t ht
  obtain rfl : Tag.rowChecksum = s := by simpa [Row.Form.tags, h] using hs
  have last : ∀ t ∈ Row.Form.partTags, t.code ≤ Tag.rowChecksum.code := by decide
  exact last t (Row.Form.mem_partTags (List.mem_of_head? ht))

theorem rows_of_canonical {fs : List Row.Form} (some_row : fs ≠ [])
    (h : ∀ f ∈ fs, f.Canonical) : Rows fs where
  some_row := some_row
  some_part f hf := by simp [Row.Form.tags, (h f hf).stored]
  separated := by
    apply List.Pairwise.isChain
    apply List.pairwise_of_forall_mem_list
    exact fun f hf g _ => separated_of_stored (by simp [(h f hf).stored])
  sealed f hf := by simp [(h f (List.mem_of_getLast? hf)).stored]

/-- What is read of a cell that has been written. -/
structure RestoresCell (c : Cell) (w : WireCell) : Prop where
  cell : w.cell = c
  stored : w.stored = some w.computed
  computed : c.checksum = .ok w.computed

/-- What is read of a row that has been written. -/
structure Restores (r : Row) (d : WireRow) : Prop where
  row : d.row = r
  primaryKey : List.Forall₂ RestoresCell r.primaryKey d.primaryKey
  attributes : List.Forall₂ RestoresCell r.attributes d.attributes
  /-- The checksum is the one that the writer of the row returns. -/
  stored : ∀ out, ∃ k out', r.emit out = .ok k out' ∧ d.stored = some k

theorem restoresCell {f : Cell.Form} (h : f.Canonical) : RestoresCell f.cell f.wire where
  cell := rfl
  stored := h.stored
  computed := h.checksum_cell

theorem forall₂_restoresCell {fs : List Cell.Form} (h : ∀ f ∈ fs, f.Canonical) :
    List.Forall₂ RestoresCell (fs.map (·.cell)) (fs.map (·.wire)) := by
  rw [List.forall₂_map_left_iff, List.forall₂_map_right_iff, List.forall₂_same]
  exact fun f hf => restoresCell (h f hf)

theorem restores {f : Row.Form} (h : f.Canonical) : Restores f.wire.row f.wire where
  row := rfl
  primaryKey := by
    rw [Row.Form.row_wire]
    exact forall₂_restoresCell fun c hc => h.cells c (List.mem_append_left _ hc)
  attributes := by
    rw [Row.Form.row_wire]
    exact forall₂_restoresCell fun c hc => h.cells c (List.mem_append_right _ hc)
  stored out := ⟨_, _, Row.emit_eq_ok.mpr ⟨f, h, rfl, rfl, rfl⟩, h.stored⟩

/-- What is written are forms of the rows, which are read again. -/
theorem exists_forms_of_encode {rows : List Row} {b : Bytes} (some_row : rows ≠ [])
    (written : encode rows = .ok b) (check : Bool) :
    ∃ fs : List Row.Form, (∀ f ∈ fs, f.Canonical) ∧ fs.map (·.wire.row) = rows ∧
      (decodeRows { verify := check } b).outcome = .ok (fs.map (·.wire)) := by
  obtain ⟨fs, canonical, rfl, rfl⟩ := encode_eq_ok.mp written
  refine ⟨fs, canonical, rfl, decodeRows_outcome_eq_ok.mpr (.inr ⟨fs, ⟨?_, rfl⟩, ?_, rfl⟩)⟩
  · exact rows_of_canonical (by simpa using some_row) canonical
  · exact fun _ f hf => (canonical f hf).verified

/-- Decoding returns the rows that have been encoded, with all checksums. -/
theorem decodeRows_encode {rows : List Row} {b : Bytes} (some_row : rows ≠ [])
    (written : encode rows = .ok b) (check : Bool) :
    ∃ decoded, (decodeRows { verify := check } b).outcome = .ok decoded ∧
      List.Forall₂ Restores rows decoded := by
  obtain ⟨fs, canonical, rfl, run⟩ := exists_forms_of_encode some_row written check
  refine ⟨fs.map (·.wire), run, ?_⟩
  rw [List.forall₂_map_left_iff, List.forall₂_map_right_iff, List.forall₂_same]
  exact fun f hf => restores (canonical f hf)

theorem decodeRows_encode_two_rows :
    let rows : List Row :=
      [{ primaryKey := [.put "id" (.int 7)], attributes := [.deleteAll "tag"], deleted := true },
        { primaryKey := [.put "id" .infMin] }]
    ∃ b, encode rows = .ok b ∧
      ∃ decoded, (decodeRows { verify := true } b).outcome = .ok decoded ∧
        List.Forall₂ Restores rows decoded :=
  ⟨_, rfl, decodeRows_encode (by decide) rfl true⟩

end TableWire.Buffer
