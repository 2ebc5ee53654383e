import TableWire.Proofs.Row.RowForm
import TableWire.Proofs.Scan.Checking
/-!
The stored checksums of cells and rows, in the order in which they stand, and what comparing them
adds to a scan.
-/

namespace TableWire

open Scan

theorem matchStored_adds (scope : Scope) (computed : UInt8) (stored : Option (Nat × UInt8)) :
    Adds (matchStored false scope computed stored) (matchStored true scope computed stored) := by
  intro c
  cases stored with
  | none => exact .inl rfl
  | some stored =>
    by_cases bad : stored.2 ≠ computed
    · refine .inr ⟨scope, stored.2, computed, stored.1, c, ?_⟩
      simp [matchStored, bad]
      rfl
    · left
      simp [matchStored, bad]

theorem matchStored_settles (scope : Scope) (computed : UInt8) (stored : Option UInt8)
    (d : Cursor) :
    Settles (matchStored true scope computed (stored.map fun k => (d.offset - 1, k)) d)
      (Checksum.endingAt d.offset scope computed stored) () d := by
  cases stored with
  | none => exact .of_ok rfl
  | some k =>
    by_cases bad : k = computed
    · simp [Settles, Checksum.endingAt, Checksum.Disagrees, matchStored, bad]
      rfl
    · simp [Settles, Checksum.endingAt, Checksum.Disagrees, matchStored, bad]
      exact ⟨_, rfl⟩

/-- The checksum that was found with a cell, and the one that its content calls for. -/
def WireCell.found (c : WireCell) : List (Scope × UInt8 × UInt8) :=
  c.stored.toList.map fun k => (.cell, k, c.computed)

/-- The checksums that were found with a row, those of its cells first. Its own covers those of the
cells, as they are stored or else as they are called for, and the marker. -/
def WireRow.found (r : WireRow) : List (Scope × UInt8 × UInt8) :=
  let called := Crc8.fold 0
    ((r.primaryKey ++ r.attributes).map (fun c => c.stored.getD c.computed) ++ [r.deleted.toUInt8])
  (r.primaryKey ++ r.attributes).flatMap (·.found) ++
    r.stored.toList.map fun k => (.row, k, called)

namespace Cell.Form

/-- The checksum of a cell that begins, behind its tag, at `start`. -/
def checksums (start : Nat) (f : Form) : List Checksum :=
  Checksum.endingAt (start + f.bytes.length) .cell f.computed f.stored

/-- The checksums of cells, each behind its tag. -/
def checksumsAll (start : Nat) : List Form → List Checksum
  | [] => []
  | f :: fs => f.checksums (start + 1) ++ checksumsAll (start + 1 + f.bytes.length) fs

theorem checksums_stand (start : Nat) (f : Form) :
    Checksum.StandIn (f.checksums start) start f.bytes := by
  refine .behind (.behind (.behind (.behind (.endingAt ?_))))
  simp only [bytes, storedPart, List.length_append]
  omega

theorem checksumsAll_stand (start : Nat) (fs : List Form) :
    Checksum.StandIn (checksumsAll start fs) start (many.bytes fs) := by
  induction fs generalizing start with
  | nil => exact .nil _ _
  | cons f fs ih =>
    have first : Checksum.StandIn (f.checksums (start + 1)) start ([Tag.cell.code] ++ f.bytes) :=
      .behind (checksums_stand (start + 1) f)
    refine first.append (?_ : Checksum.StandIn _ _ (many.bytes fs))
    convert ih (start + 1 + f.bytes.length) using 1
    simp
    omega

theorem content_checksums (start : Nat) (f : Form) :
    (f.checksums start).map (·.content) = f.wire.found := Checksum.content_endingAt

theorem content_checksumsAll (start : Nat) (fs : List Form) :
    (checksumsAll start fs).map (·.content) = (fs.map (·.wire)).flatMap (·.found) := by
  induction fs generalizing start with
  | nil => rfl
  | cons f fs ih =>
    rw [checksumsAll, List.map_append, content_checksums, ih]
    rfl

theorem checksums_agree {start : Nat} {f : Form} :
    (∀ k ∈ f.checksums start, ¬ k.Disagrees) ↔ f.Verified := Checksum.endingAt_agree

theorem checksumsAll_agree {start : Nat} {fs : List Form} :
    (∀ k ∈ checksumsAll start fs, ¬ k.Disagrees) ↔ ∀ f ∈ fs, f.Verified := by
  induction fs generalizing start with
  | nil => simp [checksumsAll]
  | cons f fs ih =>
    rw [checksumsAll, List.forall_mem_append, List.forall_mem_cons, checksums_agree, ih]

end Cell.Form

namespace WireCell

theorem adds_scan : Adds (scan false) (scan true) := by
  rw [scan_eq, scan_eq]
  refine (Adds.refl scanParts).bind fun (cell, stored) => ?_
  exact (matchStored_adds _ _ stored).bind fun _ => .refl _

theorem scan_settles {f : Cell.Form} {c d : Cursor} (span : c.Spans f.bytes d)
    (before : f.Before d.rest) : Settles (scan true c) (f.checksums c.offset) f.wire d := by
  have parts := scanParts_eq_ok.mpr ⟨f, span, rfl, rfl, before⟩
  rw [scan_eq, Cell.Form.checksums, ← span.offset]
  exact (Settles.of_ok parts).bind ((matchStored_settles _ _ f.stored d).bind_ok rfl)

theorem items_settles {fs : List Cell.Form} {c d : Cursor}
    (span : c.Spans (Cell.Form.many.bytes fs) d) (before : Cell.Form.many.Before fs d.rest) :
    Settles (Scan.items Tag.cell.code (read true) (forward_read true) c)
      (Cell.Form.checksumsAll c.offset fs) (fs.map (·.wire)) d := by
  induction fs generalizing c with
  | nil =>
    obtain rfl := Cursor.spans_nil.mp span
    refine .of_ok (items_eq_ok.mpr (.inl ⟨rfl, accept_eq_false.mpr ⟨rfl, before⟩⟩))
  | cons f fs ih =>
    obtain ⟨e', span, span'⟩ := Cursor.spans_append.mp span
    obtain ⟨e, tagSpan, span⟩ := Cursor.spans_cons.mp span
    have first : Settles (scan true e) (f.checksums (c.offset + 1)) f.wire e' :=
      tagSpan.offset ▸ scan_settles span (span'.rest ▸ before.1.1)
    have others := ih span' before.2
    rw [span.offset, tagSpan.offset] at others
    exact first.items_cons tagSpan others

end WireCell

namespace Row.Form

def groupChecksums (start : Nat) (cells : Option (List Cell.Form)) : List Checksum :=
  Cell.Form.checksumsAll (start + 1) (cells.getD [])

/-- The checksums of a row that begins at `start`. -/
def checksums (start : Nat) (f : Form) : List Checksum :=
  groupChecksums start f.primaryKey ++
    (groupChecksums (start + (groupPart .primaryKey f.primaryKey).length) f.attributes ++
      Checksum.endingAt (start + f.bytes.length) .row f.wire.computed f.stored)

theorem groupChecksums_stand (start : Nat) (g : Group) (cells : Option (List Cell.Form)) :
    Checksum.StandIn (groupChecksums start cells) start (groupPart g cells) := by
  cases cells with
  | none => exact .nil _ _
  | some fs =>
    have cells := Cell.Form.checksumsAll_stand (start + 1) fs
    exact (Checksum.StandIn.nil start [g.tag.code]).append cells

theorem checksums_stand (start : Nat) (f : Form) :
    Checksum.StandIn (f.checksums start) start f.bytes := by
  refine (groupChecksums_stand _ _ _).append ((groupChecksums_stand _ _ _).append
    (.behind (.endingAt ?_)))
  simp only [bytes, storedPart, List.length_append]
  omega

theorem content_checksums (start : Nat) (f : Form) :
    (f.checksums start).map (·.content) = f.wire.found := by
  rw [checksums, List.map_append, List.map_append, groupChecksums, groupChecksums,
    Cell.Form.content_checksumsAll, Cell.Form.content_checksumsAll, Checksum.content_endingAt,
    ← List.append_assoc, ← List.flatMap_append]
  rfl

theorem checksums_agree {start : Nat} {f : Form} :
    (∀ k ∈ f.checksums start, ¬ k.Disagrees) ↔ f.Verified := by
  rw [checksums, List.forall_mem_append, List.forall_mem_append, groupChecksums, groupChecksums,
    Cell.Form.checksumsAll_agree, Cell.Form.checksumsAll_agree, Checksum.endingAt_agree]
  constructor
  · rintro ⟨keys, others, stored⟩
    exact ⟨List.forall_mem_append.mpr ⟨keys, others⟩, stored⟩
  · rintro ⟨cells, stored⟩
    obtain ⟨keys, others⟩ := List.forall_mem_append.mp cells
    exact ⟨keys, others, stored⟩

end Row.Form

namespace WireRow

theorem adds_scanGroup (g : Group) : Adds (scanGroup false g) (scanGroup true g) := by
  rw [scanGroup_eq, scanGroup_eq]
  refine (Adds.refl _).bind fun found => ?_
  split
  · exact WireCell.adds_scan.items _ _ _
  · exact .refl _

theorem adds_scanParts : Adds (scanParts false) (scanParts true) := by
  rw [scanParts_eq, scanParts_eq]
  refine (adds_scanGroup _).bind fun primaryKey => ?_
  refine (adds_scanGroup _).bind fun attributes => ?_
  exact .refl _

theorem adds_scan : Adds (scan false) (scan true) := by
  rw [scan_eq, scan_eq]
  refine (Adds.refl _).bind fun start => ?_
  refine adds_scanParts.bind fun (row, stored) => ?_
  refine (Adds.refl _).bind fun _ => ?_
  exact (matchStored_adds _ _ stored).bind fun _ => .refl _

theorem scanGroup_settles {g : Group} {cells : Option (List Cell.Form)} {c d : Cursor}
    (span : c.Spans (Row.Form.groupPart g cells) d)
    (before : (Row.Form.groupLayout g).Before cells d.rest) :
    Settles (scanGroup true g c) (Row.Form.groupChecksums c.offset cells)
      ((cells.getD []).map (·.wire)) d := by
  cases cells with
  | none =>
    obtain rfl := Cursor.spans_nil.mp span
    rw [scanGroup_eq, bind_of_ok (accept_eq_false.mpr ⟨rfl, before⟩)]
    exact .of_ok rfl
  | some fs =>
    obtain ⟨e, tagSpan, span⟩ := Cursor.spans_cons.mp span
    rw [scanGroup_eq, bind_of_ok (accept_eq_true.mpr tagSpan), if_pos rfl]
    have cells := WireCell.items_settles span before
    rwa [tagSpan.offset] at cells

theorem scanParts_settles {f : Row.Form} {c d : Cursor} (span : c.Spans f.bytes d)
    (before : f.Before d.rest) :
    Settles (scanParts true c)
      (Row.Form.groupChecksums c.offset f.primaryKey ++ Row.Form.groupChecksums
        (c.offset + (Row.Form.groupPart .primaryKey f.primaryKey).length) f.attributes)
      (f.wire, f.stored.map fun k => (d.offset - 1, k)) d := by
  obtain ⟨c₁, span₁, span⟩ := Cursor.spans_append.mp span
  obtain ⟨c₂, span₂, span⟩ := Cursor.spans_append.mp span
  obtain ⟨c₃, span₃, span₄⟩ := Cursor.spans_append.mp span
  have keys : Settles (scanGroup true .primaryKey c) _ _ c₁ :=
    scanGroup_settles span₁ (by rw [span₂.rest, span₃.rest, span₄.rest]; exact before.primaryKey)
  have others : Settles (scanGroup true .attributes c₁) _ _ c₂ :=
    scanGroup_settles span₂ (by rw [span₃.rest, span₄.rest]; exact before.attributes)
  rw [span₁.offset] at others
  have marker := accept_eq_ok.mpr ⟨span₃, fun h => span₄.rest ▸ before.deleted h⟩
  have stored := optional_located_byte_eq_ok.mpr ⟨f.stored, span₄, rfl, before.stored⟩
  rw [place_of_tagged span₄] at stored
  rw [scanParts_eq]
  refine keys.bind (others.bind_ok ?_)
  rw [bind_of_ok marker, bind_of_ok stored]
  simp [Row.Form.wire, Function.comp_def]
  rfl

theorem scan_settles {f : Row.Form} {c d : Cursor} (span : c.Spans f.bytes d)
    (some_part : f.tags ≠ []) (before : f.Before d.rest) :
    Settles (scan true c) (f.checksums c.offset) f.wire d := by
  have moved : d.offset ≠ c.offset := by
    have := List.length_pos_iff.mpr (Row.Form.bytes_eq_nil_iff.not.mpr some_part)
    rw [span.offset]
    omega
  have progress : demandProgress c.offset d = .ok () d := demandProgress_eq_ok.mpr ⟨rfl, moved⟩
  have checked : Settles (matchStored true .row f.wire.computed
      (f.stored.map fun k => (d.offset - 1, k)) d) _ () d :=
    matchStored_settles _ _ f.stored d
  rw [scan_eq, bind_of_ok (position_eq_ok.mpr ⟨rfl, rfl⟩), Row.Form.checksums, ← List.append_assoc,
    ← span.offset]
  refine (scanParts_settles span before).bind ?_
  dsimp only
  rw [bind_of_ok progress]
  exact checked.bind_ok rfl

end WireRow

end TableWire
