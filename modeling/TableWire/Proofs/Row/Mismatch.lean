import TableWire.Proofs.Row.RowForm
import TableWire.Proofs.Scan.Quiet
/-!
What cells and rows report. A cell that is reported ends with the checksum it fails for, and a row
that fails with it is cut right behind this cell. Of cells and rows that are read, nothing is
reported.
-/

namespace TableWire

open Scan

namespace Value

theorem quiet_scanText : scanText.Quiet := by
  refine quiet_sized.located.bind ?_
  rintro ⟨offset, bytes⟩
  dsimp only
  split
  · exact quiet_pure _
  · exact quiet_fail nofun

theorem quiet_scanPayload (k : Kind) : (scanPayload k).Quiet := by
  cases k with
  | int => exact quiet_word64.map _
  | double => exact quiet_word64.map _
  | bool => exact quiet_byte.map _
  | str => exact quiet_scanText.map _
  | blob => exact quiet_sized.map _
  | null => exact quiet_pure _
  | infMin => exact quiet_pure _
  | infMax => exact quiet_pure _
  | autoIncrement => exact quiet_pure _

theorem quiet_scan : scan.Quiet := by
  refine quiet_byte.located.bind ?_
  rintro ⟨offset, code⟩
  dsimp only [scanBehind]
  cases Kind.ofCode? code with
  | none => exact quiet_fail nofun
  | some k => exact quiet_scanPayload k

end Value

section Verification

variable {check : Bool} {scope : Scope} {event : UInt8 → UInt8 → Nat → Event} {computed : UInt8}
  {stored : Option (Nat × UInt8)} {c d : Cursor} {e : BufferError} {es : List Event}

/-- A checksum that is refused is reported once. -/
theorem verifyStored_eq_error
    (run : verifyStored check scope event computed stored c = (.error e d, es)) :
    d = c ∧ ∃ o k, stored = some (o, k) ∧ e = .checksumMismatch scope k computed o ∧
      es = [event k computed o] := by
  unfold verifyStored at run
  split at run
  · cases run
  · next o k =>
    split at run
    · cases run
      exact ⟨rfl, o, k, rfl, rfl, rfl⟩
    · cases run

theorem discreet_verifyStored :
    (verifyStored check scope event computed stored).Discreet := by
  intro c u d es run
  unfold verifyStored at run
  split at run
  · cases run
    rfl
  · split at run <;> cases run
    rfl

end Verification

namespace Cell.Form

/-- The error is for the checksum of the cell, which ends at the cursor, and this is reported. -/
def Blamed (f : Form) (e : BufferError) (d : Cursor) (es : List Event) : Prop :=
  ∃ k, f.stored = some k ∧ e = .checksumMismatch .cell k f.computed (d.offset - 1) ∧
    es = [.cellMismatch f.name k f.computed (d.offset - 1)]

end Cell.Form

namespace WireCell

theorem quiet_scanName : scanName.Quiet := by
  refine quiet_position.bind fun offset => ?_
  refine (quiet_accept _).bind fun found => ?_
  cases found
  · exact quiet_fail nofun
  · exact Value.quiet_scanText

theorem quiet_scanValue : scanValue.Quiet := by
  refine quiet_word32.bind fun n => ?_
  refine (quiet_window _).bind fun field => ?_
  refine (Value.quiet_scan.within _).bind ?_
  rintro ⟨value, left⟩
  dsimp only
  split
  · exact quiet_pure _
  · exact quiet_fail nofun

theorem quiet_scanOperation : scanOperation.Quiet := by
  refine quiet_byte.located.bind ?_
  rintro ⟨offset, code⟩
  dsimp only
  split
  · exact quiet_pure _
  · exact quiet_fail nofun

theorem quiet_scanParts : scanParts.Quiet := by
  refine quiet_scanName.bind fun name => ?_
  refine (quiet_scanValue.optional _).bind fun value => ?_
  refine (quiet_scanOperation.optional _).bind fun operation => ?_
  refine ((quiet_word64.map _).optional _).bind fun timestamp => ?_
  refine (quiet_byte.located.optional _).bind fun stored => ?_
  exact quiet_pure _

variable {check : Bool} {c d : Cursor} {e : BufferError} {es : List Event}

theorem discreet_read (check : Bool) : (read check).Discreet := by
  refine (Logged.discreet_lift scanParts).bind ?_
  rintro ⟨cell, stored⟩
  exact discreet_verifyStored.bind fun _ => Logged.discreet_pure cell

theorem blamed_of_read (run : read check c = (.error e d, es)) :
    (e.Quiet ∧ es = []) ∨ ∃ f : Cell.Form, c.Spans f.bytes d ∧ f.Blamed e d es := by
  rcases Logged.lift_bind_eq_error.mp run with ⟨failed, none⟩ | ⟨⟨w, stored⟩, c', parts, run⟩
  · exact .inl ⟨quiet_scanParts c e d failed, none⟩
  obtain ⟨f, span, rfl, place, _⟩ := scanParts_eq_ok.mp parts
  rcases discreet_verifyStored.bind_eq_error.mp run with failed | ⟨_, _, _, failed⟩
  · obtain ⟨rfl, o, k, rfl, rfl, rfl⟩ := verifyStored_eq_error failed
    obtain ⟨k, stored, ⟨⟩⟩ := Option.map_eq_some_iff.mp place.symm
    exact .inr ⟨f, span, k, stored, rfl, rfl⟩
  · exact absurd failed Logged.not_pure_error

/-- Cells that are read may come before the one that is to blame. -/
theorem blamed_of_items
    (run : Logged.items Tag.cell.code (read check) (forward_read check) c = (.error e d, es)) :
    (e.Quiet ∧ es = []) ∨
      ∃ fs f, c.Spans (Cell.Form.many.bytes (fs ++ [f])) d ∧ f.Blamed e d es := by
  induction c using items_induction (forward_read check) Tag.cell.code with
  | turn c ih =>
    rw [Logged.items_eq] at run
    rcases Logged.lift_bind_eq_error.mp run with ⟨failed, none⟩ | ⟨found, c₁, tagged, run⟩
    · exact .inl ⟨quiet_accept _ c e d failed, none⟩
    cases found with
    | false => exact absurd run Logged.not_pure_error
    | true =>
      have tagSpan := accept_eq_true.mp tagged
      rcases (discreet_read check).bind_eq_error.mp run with failed | ⟨w, c₂, item, run⟩
      · refine (blamed_of_read failed).imp_right ?_
        rintro ⟨f, span, blamed⟩
        refine ⟨[], f, ?_, blamed⟩
        simpa [Cell.Form.many, Layout.many, Layout.manyBytes, Cell.Form.layout]
          using tagSpan.trans span
      · have others := (discreet_read check).items Tag.cell.code (forward_read check)
        rcases others.bind_eq_error.mp run with failed | ⟨_, _, _, failed⟩
        · obtain ⟨f, span, _⟩ := (scan_reads check c₁ w c₂).mp item
          refine (ih c₁ w c₂ tagged item failed).imp_right ?_
          rintro ⟨fs, g, span', blamed⟩
          exact ⟨f :: fs, g, (tagSpan.trans span).trans span', blamed⟩
        · exact absurd failed Logged.not_pure_error

end WireCell

namespace Row.Form

/-- The cell is the last of the row, and nothing comes behind it. -/
structure CutAt (g : Form) (f : Cell.Form) : Prop where
  last : g.cells.getLast? = some f
  deleted : g.deleted = false
  stored : g.stored = none

/-- The row, ended where it was cut. -/
def closed (g : Form) : Form := { g with stored := some 0 }

variable {f : Form} {cell : Cell.Form}

theorem CutAt.tags_ne_nil (h : f.CutAt cell) : f.tags ≠ [] := by
  obtain ⟨pk, attr, del, k⟩ := f
  have last := h.last
  cases pk with
  | none =>
    cases attr with
    | none => simp [cells] at last
    | some => simp [tags]
  | some => simp [tags]

theorem CutAt.bytes_closed (h : f.CutAt cell) :
    f.closed.bytes = f.bytes ++ [Tag.rowChecksum.code, 0] := by
  simp [closed, bytes, deletedPart, storedPart, h.deleted, h.stored, tagged]

theorem tags_closed_ne_nil (f : Form) : f.closed.tags ≠ [] := by
  simp [closed, tags]

end Row.Form

namespace WireRow

variable {check : Bool} {g : Group} {c d : Cursor} {e : BufferError} {es : List Event}

theorem discreet_readGroup (check : Bool) (g : Group) : (readGroup check g).Discreet := by
  refine (Logged.discreet_lift (accept g.tag.code)).bind fun found => ?_
  cases found
  · exact Logged.discreet_pure []
  · exact (WireCell.discreet_read check).items _ _

theorem discreet_readParts (check : Bool) : (readParts check).Discreet := by
  refine (discreet_readGroup _ _).bind fun primaryKey => ?_
  refine (discreet_readGroup _ _).bind fun attributes => ?_
  refine (Logged.discreet_lift (accept Tag.deleted.code)).bind fun deleted => ?_
  exact (Logged.discreet_lift _).bind fun stored => Logged.discreet_pure _

theorem discreet_read (check : Bool) : (read check).Discreet := by
  refine (Logged.discreet_lift position).bind fun start => ?_
  refine (discreet_readParts check).bind ?_
  rintro ⟨row, stored⟩
  refine (Logged.discreet_lift (demandProgress start)).bind fun _ => ?_
  exact discreet_verifyStored.bind fun _ => Logged.discreet_pure row

theorem blamed_of_readGroup (run : readGroup check g c = (.error e d, es)) :
    (e.Quiet ∧ es = []) ∨
      ∃ fs f, c.Spans (Row.Form.groupPart g (some (fs ++ [f]))) d ∧ f.Blamed e d es := by
  rcases Logged.lift_bind_eq_error.mp run with ⟨failed, none⟩ | ⟨found, c₁, tagged, run⟩
  · exact .inl ⟨quiet_accept _ c e d failed, none⟩
  cases found with
  | false => exact absurd run Logged.not_pure_error
  | true =>
    refine (WireCell.blamed_of_items run).imp_right ?_
    rintro ⟨fs, f, span, blamed⟩
    exact ⟨fs, f, (accept_eq_true.mp tagged).trans span, blamed⟩

theorem blamed_of_readParts (run : readParts check c = (.error e d, es)) :
    (e.Quiet ∧ es = []) ∨ ∃ (f : Row.Form) (cell : Cell.Form),
      f.CutAt cell ∧ c.Spans f.bytes d ∧ cell.Blamed e d es := by
  rcases (discreet_readGroup _ _).bind_eq_error.mp run with failed | ⟨_, c₁, keys, run⟩
  · refine (blamed_of_readGroup failed).imp_right ?_
    rintro ⟨fs, cell, span, blamed⟩
    refine ⟨⟨some (fs ++ [cell]), none, false, none⟩, cell, ⟨?_, rfl, rfl⟩, ?_, blamed⟩
    · simp [Row.Form.cells]
    · simpa [Row.Form.bytes, Row.Form.deletedPart, Row.Form.storedPart, Row.Form.groupPart, tagged]
        using span
  obtain ⟨pk, span, _⟩ := scanGroup_eq_ok.mp keys
  rcases (discreet_readGroup _ _).bind_eq_error.mp run with failed | ⟨_, c₂, others, run⟩
  · refine (blamed_of_readGroup failed).imp_right ?_
    rintro ⟨fs, cell, span', blamed⟩
    refine ⟨⟨pk, some (fs ++ [cell]), false, none⟩, cell, ⟨?_, rfl, rfl⟩, ?_, blamed⟩
    · simp [Row.Form.cells]
    · simpa [Row.Form.bytes, Row.Form.deletedPart, Row.Form.storedPart, tagged]
        using span.trans span'
  -- what comes behind the cells of a row is read without a report
  refine .inl ?_
  rcases Logged.lift_bind_eq_error.mp run with ⟨failed, none⟩ | ⟨_, c₃, _, run⟩
  · exact ⟨quiet_accept _ _ e d failed, none⟩
  rcases Logged.lift_bind_eq_error.mp run with ⟨failed, none⟩ | ⟨_, _, _, failed⟩
  · exact ⟨quiet_byte.located.optional _ _ e d failed, none⟩
  · exact absurd failed Logged.not_pure_error

theorem quiet_demandProgress (start : Nat) : (demandProgress start).Quiet := by
  refine quiet_position.bind fun here => ?_
  split
  · exact quiet_peek.bind fun _ => quiet_fail nofun
  · exact quiet_pure _

/-- The error is for the checksum of a row, and this is reported. -/
def Blamed (e : BufferError) (es : List Event) : Prop :=
  ∃ stored computed offset, e = .checksumMismatch .row stored computed offset ∧
    es = [.rowMismatch stored computed offset]

/-- A row fails for a cell, for its own checksum, or quietly. -/
theorem blamed_of_read (run : read check c = (.error e d, es)) :
    (e.Quiet ∧ es = []) ∨ Blamed e es ∨ ∃ (f : Row.Form) (cell : Cell.Form),
      f.CutAt cell ∧ c.Spans f.bytes d ∧ cell.Blamed e d es := by
  rcases Logged.lift_bind_eq_error.mp run with ⟨failed, none⟩ | ⟨start, c₁, here, run⟩
  · exact .inl ⟨quiet_position c e d failed, none⟩
  obtain ⟨rfl, rfl⟩ := position_eq_ok.mp here
  rcases (discreet_readParts check).bind_eq_error.mp run with failed | ⟨⟨row, stored⟩, c₂, _, run⟩
  · exact (blamed_of_readParts failed).imp_right .inr
  rcases Logged.lift_bind_eq_error.mp run with ⟨failed, none⟩ | ⟨_, c₃, _, run⟩
  · exact .inl ⟨quiet_demandProgress _ c₂ e d failed, none⟩
  rcases discreet_verifyStored.bind_eq_error.mp run with failed | ⟨_, _, _, failed⟩
  · obtain ⟨_, o, k, _, rfl, rfl⟩ := verifyStored_eq_error failed
    exact .inr (.inl ⟨k, _, o, rfl, rfl⟩)
  · exact absurd failed Logged.not_pure_error

end WireRow

end TableWire
