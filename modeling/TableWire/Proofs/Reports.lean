import TableWire.Filter.Compiled
import TableWire.Proofs.Buffer.Limit
import TableWire.Proofs.Row.Mismatch
/-!
What is reported is what happened. Decoding reports the rows of a buffer that is read, or the stored
checksum that it is refused for, which is told apart by the bytes in front of it (`cellEndingAt`);
compiling reports the record. Nothing else is reported.
-/

namespace TableWire

namespace Buffer

open Scan

variable {o : DecodeOptions} {n : Nat} {b : Bytes} {c d : Cursor} {e : BufferError}
  {es : List Event} {f g : Row.Form} {fs : List Row.Form} {cell : Cell.Form}

theorem rowsBytes_closed (cut : g.CutAt cell) :
    rowsBytes (fs ++ [g.closed]) = rowsBytes fs ++ (g.bytes ++ [Tag.rowChecksum.code, 0]) := by
  simp [rowsBytes, cut.bytes_closed]

/-- A row behind which others were read, up to a cell, ends as well where these are cut. -/
theorem before_closed (hf : f.tags ≠ []) (rows : Rows (fs ++ [g.closed])) (cut : g.CutAt cell)
    {rest : Bytes} (before : f.Before (rowsBytes fs ++ g.bytes ++ rest)) :
    f.Before (rowsBytes (fs ++ [g.closed])) := by
  rw [rowsBytes_closed cut]
  cases fs with
  | nil =>
    exact (before_bytes_iff hf cut.tags_ne_nil _).mpr
      ((before_bytes_iff hf cut.tags_ne_nil rest).mp before)
  | cons h fs =>
    have hh := rows.some_part h (by simp)
    rw [rowsBytes, List.flatMap_cons, List.append_assoc] at before ⊢
    rw [List.append_assoc] at before
    exact (before_bytes_iff hf hh _).mpr ((before_bytes_iff hf hh _).mp before)

/-- Of rows that are read, however many, nothing is reported. -/
theorem discreet_readRowsFrom (o : DecodeOptions) (n : Nat) :
    Logged.Discreet (readRowsFrom o n) := by
  intro c
  induction c using rows_induction o.verify generalizing n with
  | turn c ih =>
    by_cases full : o.maxRows = some n
    · intro rows d es run
      cases (readRowsFrom_of_full full).symm.trans run
    · rw [readRowsFrom_eq full]
      refine (WireRow.discreet_read o.verify c).bind fun row d next => ?_
      by_cases ended : d.rest = []
      · intro rows d' es run
        rw [readBehind_of_ended ended] at run
        exact (congrArg Prod.snd run).symm
      · have others := (ih row d next (n + 1)).bind
          fun rows d' _ => Logged.discreet_pure (row :: rows) d'
        rwa [Logged.DiscreetAt, ← readBehind_of_rest ended] at others

/-- The rows fail for a cell, with the rows before it, for the checksum of a row, or quietly. -/
theorem blamed_of_readRowsFrom (run : readRowsFrom o n c = (.error e d, es)) :
    (e.Quiet ∧ es = []) ∨ WireRow.Blamed e es ∨
      ∃ (fs : List Row.Form) (g : Row.Form) (cell : Cell.Form), Rows (fs ++ [g.closed]) ∧
        g.CutAt cell ∧ c.Spans (rowsBytes fs ++ g.bytes) d ∧ cell.Blamed e d es := by
  induction c using rows_induction o.verify generalizing n with
  | turn c ih =>
    by_cases full : o.maxRows = some n
    · cases (readRowsFrom_of_full full).symm.trans run
      exact .inl ⟨nofun, rfl⟩
    rw [readRowsFrom_eq full] at run
    rcases (WireRow.discreet_read _).bind_eq_error.mp run with failed | ⟨row, c', next, run⟩
    · refine (WireRow.blamed_of_read failed).imp_right (Or.imp_right ?_)
      rintro ⟨g, cell, cut, span, blamed⟩
      refine ⟨[], g, cell, rows_singleton.mpr ⟨g.tags_closed_ne_nil, ?_⟩, cut, span, blamed⟩
      exact Row.Form.before_nil_iff.mpr rfl
    obtain ⟨f, span, _, some_part, before, _⟩ := (WireRow.scan_reads o.verify c row c').mp next
    by_cases ended : c'.rest = []
    · cases (readBehind_of_ended ended).symm.trans run
    rw [readBehind_of_rest ended] at run
    rcases (discreet_readRowsFrom o (n + 1)).bind_eq_error.mp run with failed | ⟨_, _, _, failed⟩
    · refine (ih row c' next failed).imp_right (Or.imp_right ?_)
      rintro ⟨fs, g, cell, rows, cut, span', blamed⟩
      have closed := before_closed some_part rows cut (span'.rest ▸ before)
      refine ⟨f :: fs, g, cell, rows_cons.mpr ⟨⟨some_part, closed⟩, .inr rows⟩, cut, ?_, blamed⟩
      simpa [rowsBytes, Row.Form.layout] using span.trans span'
    · exact absurd failed Logged.not_pure_error

theorem quiet_scanHeader : scanHeader.Quiet := by
  refine quiet_word32.bind fun found => ?_
  split
  · exact quiet_fail nofun
  · exact quiet_pure _

theorem discreet_read (o : DecodeOptions) : (read o).Discreet :=
  (Logged.discreet_lift scanHeader).bind fun _ => discreet_readRowsFrom o 0

/-- A buffer that fails for a cell holds rows up to there, when it is cut and its last row ended. -/
theorem blamed_of_read (run : read o (.start b) = (.error e d, es)) :
    (e.Quiet ∧ es = []) ∨ WireRow.Blamed e es ∨
      ∃ (fs : List Row.Form) (g : Row.Form) (cell : Cell.Form),
        Written (fs ++ [g.closed]) (b.take d.offset ++ [Tag.rowChecksum.code, 0]) ∧
        g.CutAt cell ∧ 0 < d.offset ∧ cell.Blamed e d es := by
  rcases Logged.lift_bind_eq_error.mp run with ⟨failed, none⟩ | ⟨_, c, start, run⟩
  · exact .inl ⟨quiet_scanHeader _ e d failed, none⟩
  refine (blamed_of_readRowsFrom run).imp_right (Or.imp_right ?_)
  rintro ⟨fs, g, cell, rows, cut, span, blamed⟩
  have whole := (scanHeader_eq_ok.mp start).trans span
  have stop : d.offset = (word32 header.toNat ++ (rowsBytes fs ++ g.bytes)).length := by
    simpa [Cursor.start] using whole.offset
  refine ⟨fs, g, cell, ⟨rows, ?_⟩, cut, ?_, blamed⟩
  · have front : b.take d.offset = word32 header.toNat ++ (rowsBytes fs ++ g.bytes) := by
      rw [stop, show b = _ from whole.rest, List.take_left]
    rw [front, rowsBytes_closed cut]
    simp
  · rw [stop, List.length_append, length_word32]
    omega

/-- The cell whose checksum stands at the offset: the last of the buffer when it is cut behind the
checksum, and the row of the cell ended there. -/
def cellEndingAt (b : Bytes) (offset : Nat) : Option WireCell :=
  match (decodeRows { verify := false }
    (b.take (offset + 1) ++ [Tag.rowChecksum.code, 0])).outcome with
  | .ok rows => rows.getLast?.bind (·.cells.getLast?)
  | .error _ => none

theorem cellEndingAt_of_written {offset : Nat} (cut : g.CutAt cell)
    (written : Written (fs ++ [g.closed]) (b.take (offset + 1) ++ [Tag.rowChecksum.code, 0])) :
    cellEndingAt b offset = some cell.wire := by
  have read : (decodeRows { verify := false } _).outcome = _ :=
    decodeRows_outcome_eq_ok.mpr (.inr ⟨_, written, nofun, rfl⟩)
  have cells : g.closed.wire.cells = g.cells.map (·.wire) := by
    simp [WireRow.cells, Row.Form.wire, Row.Form.closed, Row.Form.cells]
  rw [cellEndingAt, read]
  simp [cells, cut.last]

end Buffer

/-- The events with their levels, as a log shows them. -/
def Traced.log {ε α : Type} (t : Traced ε α) : List (String × Event) :=
  t.events.map fun e => (e.level, e)

/-- What decoding reports about a buffer, given how it ends: with a number of rows, or an error. -/
inductive Mirrors (b : Bytes) : Except BufferError Nat → List (String × Event) → Prop
  | empty : b = [] → Mirrors b (.ok 0) []
  | rows {n : Nat} : b ≠ [] → Mirrors b (.ok n) [("DEBUG", .decoded n b.length)]
  | refused {e : BufferError} :
    (∀ scope stored computed offset, e ≠ .checksumMismatch scope stored computed offset) →
    Mirrors b (.error e) []
  | cell {w : WireCell} {stored computed : UInt8} {offset : Nat} :
    Buffer.cellEndingAt b offset = some w → w.stored = some stored → w.computed = computed →
    Mirrors b (.error (.checksumMismatch .cell stored computed offset))
      [("WARN", .cellMismatch w.cell.name stored computed offset)]
  | row {stored computed : UInt8} {offset : Nat} :
    Mirrors b (.error (.checksumMismatch .row stored computed offset))
      [("WARN", .rowMismatch stored computed offset)]

/-- The log is settled by the buffer and the outcome. -/
theorem Mirrors.unique {b : Bytes} {r : Except BufferError Nat} {es es' : List (String × Event)}
    (h : Mirrors b r es) (h' : Mirrors b r es') : es = es' := by
  cases h with
  | empty none => cases h' with
    | empty => rfl
    | rows some_byte => exact absurd none some_byte
  | rows some_byte => cases h' with
    | empty none => exact absurd none some_byte
    | rows => rfl
  | refused other => cases h' with
    | refused => rfl
    | cell => exact absurd rfl (other _ _ _ _)
    | row => exact absurd rfl (other _ _ _ _)
  | cell here => cases h' with
    | refused other => exact absurd rfl (other _ _ _ _)
    | cell here' => cases here.symm.trans here'; rfl
  | row => cases h' with
    | refused other => exact absurd rfl (other _ _ _ _)
    | row => rfl

namespace Buffer

variable {o : DecodeOptions} {b : Bytes}

theorem mirrors_failure {e : BufferError} {d : Cursor} {es : List Event}
    (run : read o (.start b) = (.error e d, es)) :
    Mirrors b (.error e) (es.map fun e => (e.level, e)) := by
  rcases blamed_of_read run with ⟨quiet, rfl⟩ | ⟨stored, computed, offset, rfl, rfl⟩ |
    ⟨fs, g, cell, written, cut, behind, k, stored, rfl, rfl⟩
  · exact .refused quiet
  · exact .row
  · rw [← Nat.sub_add_cancel behind] at written
    exact .cell (cellEndingAt_of_written cut written) stored rfl

theorem mirrors_decodeRows (o : DecodeOptions) (b : Bytes) :
    Mirrors b ((decodeRows o b).outcome.map List.length) (decodeRows o b).log := by
  by_cases none : b = []
  · subst none
    exact .empty rfl
  · rw [decodeRows, if_neg (by simpa using none)]
    rcases run : read o (.start b) with ⟨r, es⟩
    cases r with
    | ok rows d =>
      -- all there is in the log is the line behind the scan
      obtain rfl := discreet_read o _ rows d es run
      rw [Logged.run, run]
      exact .rows none
    | error e d =>
      rw [Logged.run, run]
      exact mirrors_failure run

theorem mirrors_decodeWith (o : DecodeOptions) (b : Bytes) :
    Mirrors b ((decodeWith o b).outcome.map List.length) (decodeWith o b).log := by
  have same : (decodeWith o b).outcome.map List.length =
      (decodeRows o b).outcome.map List.length := by
    rw [decodeWith, Traced.map]
    cases (decodeRows o b).outcome <;> simp [Except.map]
  exact same ▸ mirrors_decodeRows o b

/-- There is no more than one row where one is the limit. -/
theorem mirrors_decodeFirst (o : DecodeOptions) (b : Bytes) :
    Mirrors b ((decodeFirst o b).outcome.map fun r => r.toList.length) (decodeFirst o b).log := by
  have same : ((decodeFirst o b).outcome.map fun r => r.toList.length) =
      (decodeRows { o with maxRows := some 1 } b).outcome.map List.length := by
    rw [decodeFirst, Traced.map]
    cases read : (decodeRows { o with maxRows := some 1 } b).outcome with
    | error e => rfl
    | ok rows =>
      by_cases none : b = []
      · subst none
        cases read
        rfl
      · obtain ⟨row, rfl, _⟩ := (outcome_one_eq_ok_iff none).mp read
        rfl
  exact same ▸ mirrors_decodeRows _ b

end Buffer

open Buffer in
/-- Decoding logs the number of rows, a checksum that is not the computed one, or nothing, as its
outcome is; compiling logs the record if there is one, and a message is logged as the compilation of
its filter. -/
theorem log_mirrors_outcome :
    (∀ o b, Mirrors b ((decodeRows o b).outcome.map List.length) (decodeRows o b).log ∧
      Mirrors b ((decodeWith o b).outcome.map List.length) (decodeWith o b).log ∧
      Mirrors b ((decodeFirst o b).outcome.map fun r => r.toList.length) (decodeFirst o b).log) ∧
    (∀ b, Mirrors b ((decode b).outcome.map List.length) (decode b).log) ∧
    (∀ (f : Filter String) bs, (f.compile bs).log =
      match (f.compile bs).outcome with
      | .ok c => [("TRACE", .compiled c.kind c.bytes.length)]
      | .error _ => []) ∧
    ∀ source bs, (Filter.makeMessage source bs).log =
      match Filter.parse source with
      | .ok f => (f.compile bs).log
      | .error _ => [] := by
  refine ⟨fun o b => ⟨mirrors_decodeRows o b, mirrors_decodeWith o b, mirrors_decodeFirst o b⟩,
    mirrors_decodeWith {}, fun f bs => ?_, fun source bs => ?_⟩
  · rw [Filter.compile]
    cases f.resolve bs with
    | error e => rfl
    | ok resolved =>
      simp only [liftM, Traced.lift_ok_bind]
      cases resolved.encode <;> rfl
  · rw [Filter.makeMessage]
    cases Filter.parse source with
    | error e => rfl
    | ok f =>
      simp only [Except.mapError, liftM, Traced.lift_ok_bind]
      rcases f.compile bs with ⟨r, es⟩
      cases r with
      | error e => rfl
      | ok c => exact congrArg _ (List.append_nil es)

example :
    let b : Bytes := [0x75, 0, 0, 0, 1, 3, 4, 1, 0, 0, 0, 97, 10, 7, 9, 9]
    (Buffer.decodeRows {} b).log = [("WARN", .cellMismatch "a" 7 32 13)] ∧
      (Buffer.cellEndingAt b 13).map (·.cell.name) = some "a" := by
  decide +kernel

end TableWire
