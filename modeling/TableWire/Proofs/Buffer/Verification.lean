import TableWire.Proofs.Buffer.Grammar
import TableWire.Proofs.Row.Checksums
/-!
Verification of buffers. Beside a decoder that does not compare checksums, one that does only adds a
mismatch, and reports the first stored checksum that is not the computed one.
-/

namespace TableWire

/-- In the rows that were read, the checksum of a row is the fold of the checksums of its cells, as
they are stored or else as they are called for, and of the marker. -/
theorem Row.Form.verified_iff {f : Form} : f.Verified ↔
    (∀ c ∈ f.wire.primaryKey ++ f.wire.attributes, ∀ k ∈ c.stored, k = c.computed) ∧
      ∀ k ∈ f.wire.stored, k = Crc8.fold 0
        ((f.wire.primaryKey ++ f.wire.attributes).map (fun c => c.stored.getD c.computed) ++
          [f.wire.deleted.toUInt8]) := by
  have cells : (∀ c ∈ f.cells, c.Verified) ↔
      ∀ c ∈ f.wire.primaryKey ++ f.wire.attributes, ∀ k ∈ c.stored, k = c.computed := by
    rw [wire, ← List.map_append, List.forall_mem_map]
    rfl
  constructor
  · rintro ⟨verified, stored⟩
    exact ⟨cells.mp verified, stored⟩
  · rintro ⟨agree, stored⟩
    exact ⟨cells.mpr agree, stored⟩

namespace Buffer

open Scan

/-- The checksums of rows that begin at `start`. -/
def checksums (start : Nat) : List Row.Form → List Checksum
  | [] => []
  | f :: fs => f.checksums start ++ checksums (start + f.bytes.length) fs

theorem checksums_stand (start : Nat) (fs : List Row.Form) :
    Checksum.StandIn (checksums start fs) start (rowsBytes fs) := by
  induction fs generalizing start with
  | nil => exact .nil _ _
  | cons f fs ih => exact (Row.Form.checksums_stand start f).append (ih _)

/-- They are the checksums that were found with the rows, in their order. -/
theorem content_checksums (start : Nat) (fs : List Row.Form) :
    (checksums start fs).map (·.content) = (fs.map (·.wire)).flatMap (·.found) := by
  induction fs generalizing start with
  | nil => rfl
  | cons f fs ih =>
    rw [checksums, List.map_append, Row.Form.content_checksums, ih]
    rfl

theorem checksums_agree {start : Nat} {fs : List Row.Form} :
    (∀ k ∈ checksums start fs, ¬ k.Disagrees) ↔ ∀ f ∈ fs, f.Verified := by
  induction fs generalizing start with
  | nil => simp [checksums]
  | cons f fs ih =>
    rw [checksums, List.forall_mem_append, List.forall_mem_cons, Row.Form.checksums_agree, ih]

section Limit

variable {limit : Option Nat} {read : Nat}

theorem adds_scanRowsFrom (c : Cursor) :
    AddsAt (scanRowsFrom ⟨false, limit⟩ read) (scanRowsFrom ⟨true, limit⟩ read) c := by
  induction c using rows_induction false generalizing read with
  | turn c ih =>
    by_cases room : limit = some read
    · left
      rw [scanRowsFrom_of_full room, scanRowsFrom_of_full room]
    · rw [scanRowsFrom_eq (o := ⟨false, limit⟩) room, scanRowsFrom_eq (o := ⟨true, limit⟩) room]
      refine (WireRow.adds_scan c).bind fun row d next => ?_
      by_cases ended : d.rest = []
      · left
        rw [scanBehind_of_ended ended, scanBehind_of_ended ended]
      · rw [AddsAt, scanBehind_of_rest ended, scanBehind_of_rest ended]
        exact (ih row d next).bind fun _ _ _ => .inl rfl

/-- Rows that are read without verification have forms, whose checksums settle the run with
verification. -/
theorem scanRowsFrom_settles {c d : Cursor} {rows : List WireRow}
    (run : scanRowsFrom ⟨false, limit⟩ read c = .ok rows d) :
    ∃ fs, Rows fs ∧ c.Spans (rowsBytes fs) d ∧ d.rest = [] ∧ fs.map (·.wire) = rows ∧
      Settles (scanRowsFrom ⟨true, limit⟩ read c) (checksums c.offset fs) rows d := by
  induction rows generalizing read c with
  | nil => obtain ⟨_, _, _, _, _, ⟨⟩, _⟩ := scanRowsFrom_eq_ok.mp run
  | cons row rows ih =>
    obtain ⟨room, _, e, _, next, ⟨⟩, onward⟩ := scanRowsFrom_eq_ok.mp run
    obtain ⟨f, span, rfl, some_part, before, _⟩ := (WireRow.scan_reads false c _ e).mp next
    have first := WireRow.scan_settles span some_part before
    rw [scanRowsFrom_eq (o := ⟨true, limit⟩) room]
    split at onward
    · next ended =>
      obtain ⟨rfl, rfl⟩ := onward
      refine ⟨[f], rows_singleton.mpr ⟨some_part, ended ▸ before⟩, ?_, ended, rfl, ?_⟩
      · rw [rowsBytes, List.flatMap_cons, List.flatMap_nil, List.append_nil]
        exact span
      · rw [checksums, checksums, List.append_nil]
        exact first.bind_ok (scanBehind_of_ended ended)
    · next some_rest =>
      obtain ⟨fs, rows, span', ended, rfl, others⟩ := ih onward
      refine ⟨f :: fs, rows_cons.mpr ⟨⟨some_part, ?_⟩, .inr rows⟩, span.trans span', ended, rfl, ?_⟩
      · rwa [span'.rest, ended, List.append_nil] at before
      · rw [span.offset] at others
        refine first.bind ?_
        rw [scanBehind_of_rest some_rest]
        exact others.bind_ok rfl

theorem adds_scan : Adds (scan ⟨false, limit⟩) (scan ⟨true, limit⟩) := by
  rw [scan_eq, scan_eq]
  exact (Adds.refl scanHeader).bind fun _ => adds_scanRowsFrom

theorem scan_settles {b : Bytes} {d : Cursor} {rows : List WireRow}
    (run : scan ⟨false, limit⟩ (.start b) = .ok rows d) :
    ∃ fs, Written fs b ∧ fs.map (·.wire) = rows ∧
      Settles (scan ⟨true, limit⟩ (.start b)) (checksums headerSize fs) rows d := by
  rw [scan_eq] at run
  obtain ⟨_, e, start, run⟩ := bind_eq_ok.mp run
  obtain ⟨fs, rows, span, ended, content, settled⟩ := scanRowsFrom_settles run
  have header := scanHeader_eq_ok.mp start
  refine ⟨fs, ⟨rows, ?_⟩, content, ?_⟩
  · have whole := (header.trans span).rest
    rwa [ended, List.append_nil] at whole
  · rw [scan_eq, bind_of_ok start]
    have behind : e.offset = headerSize := header.offset
    exact behind ▸ settled

theorem decodeRows_adds (b : Bytes) :
    (decodeRows ⟨true, limit⟩ b).outcome = (decodeRows ⟨false, limit⟩ b).outcome ∨
      ∃ scope stored computed offset, (decodeRows ⟨true, limit⟩ b).outcome =
        .error (.checksumMismatch scope stored computed offset) := by
  by_cases empty : b = []
  · left
    rw [empty]
    rfl
  · rw [outcome_decodeRows empty, outcome_decodeRows empty]
    rcases adds_scan (.start b) with
      same | ⟨scope, stored, computed, offset, d, failed⟩
    · left
      rw [same]
    · refine .inr ⟨scope, stored, computed, offset, ?_⟩
      rw [failed]

/-- `e` reports the first stored checksum among those of the rows in `b` that is not the one called
for. -/
def FirstMismatch (b : Bytes) (rows : List WireRow) (e : BufferError) : Prop :=
  ∃ fs, Written fs b ∧ fs.map (·.wire) = rows ∧
    (checksums headerSize fs).map (·.content) = rows.flatMap (·.found) ∧
    ∃ k ∈ checksums headerSize fs, k.Disagrees ∧
      (∀ l ∈ checksums headerSize fs, l.Disagrees → k.offset ≤ l.offset) ∧
      b[k.offset]? = some k.stored ∧ e = k.error

theorem decodeRows_settles {b : Bytes} {rows : List WireRow} (some_byte : b ≠ [])
    (accepted : (decodeRows ⟨false, limit⟩ b).outcome = .ok rows) :
    ∃ fs, Written fs b ∧ fs.map (·.wire) = rows ∧
      ((∀ f ∈ fs, f.Verified) → (decodeRows ⟨true, limit⟩ b).outcome = .ok rows) ∧
      (¬ (∀ f ∈ fs, f.Verified) → ∃ e, FirstMismatch b rows e ∧
        (decodeRows ⟨true, limit⟩ b).outcome = .error e) := by
  rw [outcome_decodeRows some_byte] at accepted ⊢
  cases run : scan ⟨false, limit⟩ (.start b) with
  | error e d => simp [run] at accepted
  | ok rows' d =>
    obtain rfl : rows' = rows := by simpa [run] using accepted
    obtain ⟨fs, written, content, settled⟩ := scan_settles run
    refine ⟨fs, written, content, fun verified => ?_, fun unverified => ?_⟩
    · rw [settled.of_agree (checksums_agree.mpr verified)]
    · obtain ⟨k, d', first, failed⟩ := settled.of_disagree (checksums_agree.not.mpr unverified)
      -- places count from the start of the buffer, and the header holds no checksum
      have stand : Checksum.StandIn (checksums headerSize fs) 0 b := by
        rw [written.bytes]
        exact .behind (checksums_stand headerSize fs)
      have mem := List.mem_of_find?_eq_some first
      have found := content ▸ content_checksums headerSize fs
      refine ⟨k.error, ⟨fs, written, content, found, k, mem, ?_, ?_, ?_, rfl⟩, by rw [failed]⟩
      · simpa using List.find?_some first
      · exact stand.le_of_find? first
      · exact (stand.stored k mem).2

end Limit

/-- Verification changes nothing about a buffer in which the stored checksum of every cell is the
one its content calls for, and that of every row the fold of the checksums of its cells, first those
of the primary key, and of the marker for a deletion. The first that is not is reported. What is
refused without verification stays refused, maybe for a checksum that stands before the fault. -/
theorem decodeRows_verify (limit : Option Nat) (b : Bytes) :
    (∀ rows, (decodeRows { verify := false, maxRows := limit } b).outcome = .ok rows →
      ((decodeRows { verify := true, maxRows := limit } b).outcome = .ok rows ↔
        ∀ r ∈ rows, (∀ c ∈ r.primaryKey ++ r.attributes, ∀ k ∈ c.stored, k = c.computed) ∧
          ∀ k ∈ r.stored, k = Crc8.fold 0
            ((r.primaryKey ++ r.attributes).map (fun c => c.stored.getD c.computed) ++
              [r.deleted.toUInt8])) ∧
      ((decodeRows { verify := true, maxRows := limit } b).outcome ≠ .ok rows →
        ∃ e, FirstMismatch b rows e ∧
          (decodeRows { verify := true, maxRows := limit } b).outcome = .error e)) ∧
    (∀ e, (decodeRows { verify := false, maxRows := limit } b).outcome = .error e →
      (decodeRows { verify := true, maxRows := limit } b).outcome = .error e ∨
        ∃ scope stored computed offset,
          (decodeRows { verify := true, maxRows := limit } b).outcome =
            .error (.checksumMismatch scope stored computed offset)) := by
  refine ⟨fun rows accepted => ?_, fun e refused => refused ▸ decodeRows_adds b⟩
  by_cases empty : b = []
  · subst empty
    cases accepted
    have none : (decodeRows { verify := true, maxRows := limit } []).outcome = .ok [] := rfl
    exact ⟨⟨fun _ => nofun, fun _ => none⟩, fun refused => absurd none refused⟩
  · obtain ⟨fs, written, rfl, agree, disagree⟩ := decodeRows_settles empty accepted
    refine ⟨⟨fun strict => ?_, fun sound => agree fun f hf => ?_⟩, fun refused => ?_⟩
    · refine List.forall_mem_map.mpr fun f hf => Row.Form.verified_iff.mp ?_
      by_contra unverified
      obtain ⟨e, _, failed⟩ := disagree fun verified => unverified (verified f hf)
      cases strict.symm.trans failed
    · exact Row.Form.verified_iff.mpr (List.forall_mem_map.mp sound f hf)
    · exact disagree fun verified => refused (agree verified)

theorem decodeRows_verify_two_mismatches :
    let b : Bytes := [0x75, 0, 0, 0, 1, 3, 4, 1, 0, 0, 0, 97, 10, 7, 9, 9,
      2, 3, 4, 1, 0, 0, 0, 98, 9, 0]
    let c : Bytes := [0x75, 0, 0, 0, 1, 3, 4, 1, 0, 0, 0, 97, 2, 3, 4, 1, 0, 0, 0, 98, 10, 41, 8,
      9, 9, 2, 3, 4, 1, 0, 0, 0, 98, 10, 40, 9, 0]
    let p := b.take 25
    let rows : List WireRow :=
      [{ primaryKey := [⟨{ name := "a" }, some 7, 32⟩], stored := some 9 },
        { attributes := [⟨{ name := "b" }, none, 41⟩], stored := some 0 }]
    let deleted : List WireRow :=
      [{ primaryKey := [⟨{ name := "a" }, none, 32⟩],
         attributes := [⟨{ name := "b" }, some 41, 41⟩], deleted := true, stored := some 9 },
        { attributes := [⟨{ name := "b" }, some 40, 41⟩], stored := some 0 }]
    (decodeRows { verify := false } b).outcome = .ok rows ∧
      (decodeRows { verify := false } c).outcome = .ok deleted ∧
      (decodeRows { verify := false } p).outcome = .error (.truncated 25 1 0) ∧
      (decodeRows { verify := true } b).outcome = .error (.checksumMismatch .cell 7 32 13) ∧
      FirstMismatch b rows (.checksumMismatch .cell 7 32 13) ∧
      (decodeRows { verify := true } c).outcome =
        .error (.checksumMismatch .row 9 (Crc8.fold 0 [32, 41, 1]) 24) ∧
      FirstMismatch c deleted (.checksumMismatch .row 9 (Crc8.fold 0 [32, 41, 1]) 24) ∧
      ((decodeRows { verify := true } p).outcome = .error (.truncated 25 1 0) ∨
        ∃ scope stored computed offset, (decodeRows { verify := true } p).outcome =
          .error (.checksumMismatch scope stored computed offset)) := by
  intro b c p rows deleted
  have read_b : (decodeRows { verify := false } b).outcome = .ok rows := by decide +kernel
  have read_c : (decodeRows { verify := false } c).outcome = .ok deleted := by decide +kernel
  have cut : (decodeRows { verify := false } p).outcome = .error (.truncated 25 1 0) := by
    decide +kernel
  have cell : (decodeRows { verify := true } b).outcome =
      .error (.checksumMismatch .cell 7 32 13) := by decide +kernel
  have row : (decodeRows { verify := true } c).outcome =
      .error (.checksumMismatch .row 9 (Crc8.fold 0 [32, 41, 1]) 24) := by decide +kernel
  obtain ⟨e, first_b, failed_b⟩ := ((decodeRows_verify none b).1 rows read_b).2 (by simp [cell])
  obtain ⟨e', first_c, failed_c⟩ := ((decodeRows_verify none c).1 deleted read_c).2 (by simp [row])
  obtain rfl := Except.error.inj (failed_b.symm.trans cell)
  obtain rfl := Except.error.inj (failed_c.symm.trans row)
  exact ⟨read_b, read_c, cut, cell, first_b, row, first_c, (decodeRows_verify none p).2 _ cut⟩

end Buffer

end TableWire
