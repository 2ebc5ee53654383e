import TableWire.Proofs.Buffer.RoundTrip
import TableWire.Proofs.Row.Fitting
/-!
All ways to write rows agree: together, each in a buffer of its own, or behind anything else. They
write the canonical forms of the rows, and fail together where a row has no cells.
-/

namespace TableWire.Buffer

theorem encodeRow_eq_ok {r : Row} {b : Bytes} :
    encodeRow r = .ok b ↔
      ∃ f : Row.Form, f.Canonical ∧ f.wire.row = r ∧ b = word32 header.toNat ++ f.bytes := by
  simp only [encodeRow, Emit.output_eq_ok, emitRow, Emit.bind_eq_ok, Emit.bytes_eq_ok,
    Emit.discard_eq_ok, Row.emit_eq_ok]
  constructor
  · rintro ⟨_, _, _, rfl, _, f, canonical, content, _, written⟩
    exact ⟨f, canonical, content, by simpa using written⟩
  · rintro ⟨f, canonical, content, rfl⟩
    exact ⟨(), (), _, rfl, _, f, canonical, content, rfl, by simp⟩

theorem encode_singleton (r : Row) : encode [r] = encodeRow r := by
  have alone : emitRows [r] = discard r.emit := by simp [emitRows]
  rw [encode, emit, alone]
  rfl

/-- To write a row from its parts is to write it as one of many. -/
theorem serialize_eq (r : Row) : serialize r.primaryKey r.attributes r.deleted = encodeRow r := rfl

section Success

theorem exists_forms {rows : List Row} (fits : ∀ r ∈ rows, r.Fits)
    (some_cell : ∀ r ∈ rows, r.hasCells) :
    ∃ fs : List Row.Form, (∀ f ∈ fs, f.Canonical) ∧ fs.map (·.wire.row) = rows :=
  exists_map_eq fun r hr => (fits r hr).exists_form (some_cell r hr)

theorem encodeEach_of_canonical {fs : List Row.Form} (h : ∀ f ∈ fs, f.Canonical) :
    encodeEach (fs.map (·.wire.row)) = .ok (fs.map fun f => word32 header.toNat ++ f.bytes) := by
  induction fs with
  | nil => rfl
  | cons f fs ih =>
    obtain ⟨hf, h⟩ := List.forall_mem_cons.mp h
    have first := encodeRow_eq_ok.mpr ⟨f, hf, rfl, rfl⟩
    rw [encodeEach] at ih ⊢
    rw [List.map_cons, List.mapM_cons, first, ih h]
    rfl

theorem rowsBytes_eq (fs : List Row.Form) :
    rowsBytes fs =
      (fs.map fun f => word32 header.toNat ++ f.bytes).flatMap (·.drop headerSize) := by
  have bare (f : Row.Form) : (word32 header.toNat ++ f.bytes).drop headerSize = f.bytes :=
    List.drop_left' (length_word32 _)
  simp only [rowsBytes, List.flatMap_map, bare]

end Success

section Failure

theorem emitRows_cons (r : Row) (rows : List Row) (out : Array UInt8) :
    emitRows (r :: rows) out = match r.emit out with
      | .ok _ out' => emitRows rows out'
      | .error err out' => .error err out' := by
  change (discard r.emit >>= fun _ => emitRows rows) out = _
  simp only [discard, Functor.mapConst, Function.comp, Bind.bind, EStateM.bind, EStateM.map]
  cases r.emit out <;> rfl

theorem encodeRow_of_not_hasCells {r : Row} (h : ¬ r.hasCells) :
    encodeRow r = .error .emptyRow := by
  have failed : encode [r] = .error .emptyRow := by
    simp only [encode, Emit.output, emit, Bind.bind, EStateM.bind, Emit.bytes, emitRows_cons,
      Row.emit_of_not_hasCells h]
  rw [← encode_singleton, failed]

/-- Rows are written up to the first that has no cells. -/
theorem emitRows_of_not_hasCells {rows : List Row} (fits : ∀ r ∈ rows, r.Fits)
    (h : ∃ r ∈ rows, ¬ r.hasCells) (out : Array UInt8) :
    ∃ out', emitRows rows out = .error .emptyRow out' := by
  induction rows generalizing out with
  | nil => simp at h
  | cons r rows ih =>
    obtain ⟨hr, others⟩ := List.forall_mem_cons.mp fits
    rw [emitRows_cons]
    by_cases some_cell : r.hasCells
    · obtain ⟨f, canonical, rfl⟩ := hr.exists_form some_cell
      rw [canonical.writtenAs.appended]
      exact ih others (by simpa [some_cell] using h) _
    · rw [Row.emit_of_not_hasCells some_cell]
      exact ⟨out, rfl⟩

theorem encodeEach_of_not_hasCells {rows : List Row} (fits : ∀ r ∈ rows, r.Fits)
    (h : ∃ r ∈ rows, ¬ r.hasCells) : encodeEach rows = .error .emptyRow := by
  induction rows with
  | nil => simp at h
  | cons r rows ih =>
    obtain ⟨hr, others⟩ := List.forall_mem_cons.mp fits
    rw [encodeEach] at ih ⊢
    rw [List.mapM_cons]
    by_cases some_cell : r.hasCells
    · obtain ⟨f, canonical, rfl⟩ := hr.exists_form some_cell
      rw [encodeRow_eq_ok.mpr ⟨f, canonical, rfl, rfl⟩, ih others (by simpa [some_cell] using h)]
      rfl
    · rw [encodeRow_of_not_hasCells some_cell]
      rfl

theorem encode_of_not_hasCells {rows : List Row} (fits : ∀ r ∈ rows, r.Fits)
    (h : ∃ r ∈ rows, ¬ r.hasCells) : encode rows = .error .emptyRow := by
  obtain ⟨out', failed⟩ :=
    emitRows_of_not_hasCells fits h ((#[] : Array UInt8) ++ word32 header.toNat)
  simp only [encode, Emit.output, emit, Bind.bind, EStateM.bind, Emit.bytes, failed]

end Failure

/-- Rows that fit are written together exactly when each is written alone, and then as one header
and what each has behind its own. Wherever a row is written it appends the same bytes and returns
the last of them, which is the fold of the checksums of its cells and of the delete marker. -/
theorem encode_agrees :
    (∀ rows : List Row, (∀ r ∈ rows, r.Fits) →
      ((∀ r ∈ rows, r.hasCells) → ∃ blobs, encodeEach rows = .ok blobs ∧
        List.Forall₂ (fun r blob => encodeRow r = .ok blob ∧ encode [r] = .ok blob ∧
          serialize r.primaryKey r.attributes r.deleted = .ok blob) rows blobs ∧
        encode rows = .ok (word32 header.toNat ++ blobs.flatMap (·.drop headerSize))) ∧
      ((∃ r ∈ rows, ¬ r.hasCells) →
        encode rows = .error .emptyRow ∧ encodeEach rows = .error .emptyRow)) ∧
    (∀ r : Row, r.Fits → r.hasCells → ∃ bytes k,
      encodeRow r = .ok (word32 header.toNat ++ bytes) ∧ r.WrittenAs bytes k) ∧
    (∀ (r : Row) out k out', r.emit out = .ok k out' → ∃ bytes : Bytes, out' = out ++ bytes ∧
      encodeRow r = .ok (word32 header.toNat ++ bytes) ∧ r.WrittenAs bytes k) ∧
    (∀ (r : Row) out out', r.emit out = .error .emptyRow out' ↔ ¬ r.hasCells ∧ out' = out) ∧
    (∀ (g : Group) cells seed, (∀ c ∈ cells, c.Fits) → ∃ ks bytes,
      cells.mapM Cell.checksum = .ok ks ∧
      ∀ out, g.emit cells seed out = .ok (Crc8.fold seed ks) (out ++ (bytes : Bytes))) ∧
    ∀ (g : Group) cells seed out k out', g.emit cells seed out = .ok k out' →
      ∃ ks, cells.mapM Cell.checksum = .ok ks ∧ k = Crc8.fold seed ks := by
  refine ⟨fun rows fits => ⟨fun some_cell => ?_, fun empty => ?_⟩, fun r fits some_cell => ?_,
    fun r out k out' run => ?_, fun _ _ _ => Row.emit_eq_emptyRow,
    fun g cells seed fits => Group.exists_emit fits g seed, fun g cells seed out k out' run => ?_⟩
  · obtain ⟨fs, canonical, rfl⟩ := exists_forms fits some_cell
    refine ⟨_, encodeEach_of_canonical canonical, ?_, ?_⟩
    · rw [List.forall₂_map_left_iff, List.forall₂_map_right_iff, List.forall₂_same]
      intro f hf
      have alone := encodeRow_eq_ok.mpr ⟨f, canonical f hf, rfl, rfl⟩
      exact ⟨alone, (encode_singleton _).trans alone, (serialize_eq _).trans alone⟩
    · exact encode_eq_ok.mpr ⟨fs, canonical, rfl, by rw [rowsBytes_eq]⟩
  · exact ⟨encode_of_not_hasCells fits empty, encodeEach_of_not_hasCells fits empty⟩
  · obtain ⟨f, canonical, rfl⟩ := fits.exists_form some_cell
    exact ⟨f.bytes, _, encodeRow_eq_ok.mpr ⟨f, canonical, rfl, rfl⟩, canonical.writtenAs⟩
  · obtain ⟨f, canonical, rfl, rfl, rfl⟩ := Row.emit_eq_ok.mp run
    exact ⟨f.bytes, rfl, encodeRow_eq_ok.mpr ⟨f, canonical, rfl, rfl⟩, canonical.writtenAs⟩
  · obtain ⟨fs, canonical, rfl, rfl, _⟩ := Group.emit_eq_ok.mp run
    exact ⟨_, Cell.mapM_checksum canonical, rfl⟩

theorem encode_agrees_two_rows :
    let rows : List Row :=
      [{ primaryKey := [.put "id" (.int 7)], attributes := [.deleteAll "tag"], deleted := true },
        { attributes := [.put "id" .infMin] }]
    (∀ r ∈ rows, r.Fits) ∧ (∀ r ∈ rows, r.hasCells) ∧
    (∃ blobs, encodeEach rows = .ok blobs ∧
      encode rows = .ok (word32 header.toNat ++ blobs.flatMap (·.drop headerSize))) ∧
    encode (rows ++ [.empty]) = .error .emptyRow := by
  intro rows
  obtain ⟨together, _⟩ := encode_agrees
  have fits : ∀ r ∈ rows, r.Fits := by decide +kernel
  have some_cell : ∀ r ∈ rows, r.hasCells := by decide
  obtain ⟨blobs, each, _, all⟩ := (together rows fits).1 some_cell
  have fits' : ∀ r ∈ rows ++ [.empty], r.Fits := by decide +kernel
  exact ⟨fits, some_cell, ⟨blobs, each, all⟩, ((together _ fits').2 (by decide)).1⟩

end TableWire.Buffer
