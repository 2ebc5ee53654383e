import TableWire.Buffer.Decode
import TableWire.Proofs.Row.RowForm
/-!
The grammar of row buffers. There is nothing between rows: one ends with its checksum, or where a
tag follows that stands no later than its last one. Decoding accepts exactly this grammar, and the
forms of the rows can be told from the bytes.
-/

namespace TableWire.Buffer

/-- The first tag of `g` is no greater than the last of `f`. -/
def Separated (f g : Row.Form) : Prop := ∀ s ∈ f.tags.getLast?, ∀ t ∈ g.tags.head?, t.code ≤ s.code

def rowsBytes (fs : List Row.Form) : Bytes := fs.flatMap Row.Form.bytes

/-- The rows of a buffer. -/
structure Rows (fs : List Row.Form) : Prop where
  some_row : fs ≠ []
  some_part : ∀ f ∈ fs, f.tags ≠ []
  separated : fs.IsChain Separated
  /-- The last row ends with its checksum. -/
  sealed : ∀ f ∈ fs.getLast?, f.stored.isSome

theorem rows_singleton {f : Row.Form} : Rows [f] ↔ f.tags ≠ [] ∧ f.Before [] := by
  rw [Row.Form.before_nil_iff]
  constructor
  · intro h
    exact ⟨h.some_part f (by simp), h.sealed f (by simp)⟩
  · intro ⟨some_part, sealed⟩
    exact ⟨by simp, by simpa using some_part, by simp, by simpa using sealed⟩

/-- Where a row ends is settled by the first tag of the next. -/
theorem before_bytes_iff {f g : Row.Form} (hf : f.tags ≠ []) (hg : g.tags ≠ []) (rest : Bytes) :
    f.Before (g.bytes ++ rest) ↔ Separated f g := by
  obtain ⟨t, head⟩ := Option.ne_none_iff_exists'.mp (List.head?_eq_none_iff.not.mpr hg)
  obtain ⟨bs, bytes⟩ := Row.Form.bytes_of_head head
  have part := Row.Form.mem_partTags (List.mem_of_head? head)
  rw [bytes, List.cons_append, Row.Form.before_iff hf part]
  simp [Separated, head]

theorem before_rowsBytes_iff {f g : Row.Form} {fs : List Row.Form} (hf : f.tags ≠ [])
    (hg : g.tags ≠ []) : f.Before (rowsBytes (g :: fs)) ↔ Separated f g := by
  rw [rowsBytes, List.flatMap_cons]
  exact before_bytes_iff hf hg _

theorem rows_cons_cons {f g : Row.Form} {fs : List Row.Form} :
    Rows (f :: g :: fs) ↔
      (f.tags ≠ [] ∧ f.Before (rowsBytes (g :: fs))) ∧ Rows (g :: fs) := by
  constructor
  · intro h
    have hf := h.some_part f (by simp)
    have hg := h.some_part g (by simp)
    obtain ⟨separated, chain⟩ := List.isChain_cons_cons.mp h.separated
    refine ⟨⟨hf, (before_rowsBytes_iff hf hg).mpr separated⟩, by simp, ?_, chain, ?_⟩
    · exact fun x hx => h.some_part x (List.mem_cons_of_mem f hx)
    · simpa using h.sealed
  · intro ⟨⟨hf, before⟩, h⟩
    have hg := h.some_part g (by simp)
    refine ⟨by simp, List.forall_mem_cons.mpr ⟨hf, h.some_part⟩, ?_, by simpa using h.sealed⟩
    exact List.isChain_cons_cons.mpr ⟨(before_rowsBytes_iff hf hg).mp before, h.separated⟩

theorem rows_cons {f : Row.Form} {fs : List Row.Form} :
    Rows (f :: fs) ↔ (f.tags ≠ [] ∧ f.Before (rowsBytes fs)) ∧ (fs = [] ∨ Rows fs) := by
  cases fs with
  | nil => simp [rows_singleton, rowsBytes]
  | cons g fs => simp [rows_cons_cons]

theorem rowsBytes_ne_nil {fs : List Row.Form} (h : Rows fs) : rowsBytes fs ≠ [] := by
  cases fs with
  | nil => exact absurd rfl h.some_row
  | cons f fs =>
    intro empty
    have none := (List.append_eq_nil_iff.mp empty).1
    exact (rows_cons.mp h).1.1 (Row.Form.bytes_eq_nil_iff.mp none)

/-- More bytes behind rows do not belong to the last of them. -/
theorem Rows.before_append {f : Row.Form} {fs : List Row.Form} (h : Rows (f :: fs)) (more : Bytes) :
    f.Before (rowsBytes fs ++ more) := by
  cases fs with
  | nil => exact Row.Form.before_of_stored (h.sealed f (by simp)) _
  | cons g fs =>
    obtain ⟨⟨hf, before⟩, rows⟩ := rows_cons_cons.mp h
    have hg := rows.some_part g (by simp)
    rw [rowsBytes, List.flatMap_cons, List.append_assoc]
    exact (before_bytes_iff hf hg _).mpr ((before_rowsBytes_iff hf hg).mp before)

/-- Rows whose bytes stand first in those of other rows are the first of these. -/
theorem Rows.prefix_of_bytes {fs gs : List Row.Form} {more : Bytes} (hf : Rows fs) (hg : Rows gs)
    (same : rowsBytes fs = rowsBytes gs ++ more) : gs <+: fs := by
  induction gs generalizing fs with
  | nil => exact absurd rfl hg.some_row
  | cons g gs ih =>
    cases fs with
    | nil => exact absurd rfl hf.some_row
    | cons f fs =>
      obtain ⟨⟨f_part, f_before⟩, fs_rows⟩ := rows_cons.mp hf
      obtain ⟨⟨g_part, _⟩, gs_rows⟩ := rows_cons.mp hg
      rw [rowsBytes, rowsBytes, List.flatMap_cons, List.flatMap_cons, List.append_assoc] at same
      obtain ⟨rfl, behind⟩ := Row.Form.unambiguous same f_part f_before g_part
        (hg.before_append more)
      rcases gs_rows with rfl | gs_rows
      · exact ⟨fs, rfl⟩
      · refine List.prefix_cons_inj _ |>.mpr ?_
        rcases fs_rows with rfl | fs_rows
        · exact absurd (List.append_eq_nil_iff.mp behind.symm).1 (rowsBytes_ne_nil gs_rows)
        · exact ih fs_rows gs_rows behind

/-- The forms of rows can be told from their bytes. -/
theorem Rows.ext_of_bytes {fs gs : List Row.Form} (hf : Rows fs) (hg : Rows gs)
    (same : rowsBytes fs = rowsBytes gs) : fs = gs := by
  have before := hf.prefix_of_bytes hg (same.trans (List.append_nil _).symm)
  have after := hg.prefix_of_bytes hf (same.symm.trans (List.append_nil _).symm)
  exact after.eq_of_length_le before.length_le

/-- Induction along the loop over rows: each turn may rely on what comes behind the row. -/
@[elab_as_elim]
theorem rows_induction (check : Bool) {motive : Cursor → Prop}
    (turn : ∀ c, (∀ row d, WireRow.scan check c = .ok row d → motive d) → motive c) (c : Cursor) :
    motive c := by
  induction size : c.remaining using Nat.strong_induction_on generalizing c with
  | _ n ih =>
    exact turn c fun row d next => ih _ (size ▸ WireRow.remaining_lt_of_scan next) d rfl

section Turn

variable {o : DecodeOptions} {read : Nat} {row : WireRow} {c d : Cursor}

/-- What follows a row, which is the last one at the end of the input. -/
def readBehind (o : DecodeOptions) (read : Nat) (row : WireRow) : Logged (List WireRow) := fun d =>
  if d.rest = [] then (.ok [row] d, [])
  else (do
    let rows ← (show Logged (List WireRow) from readRowsFrom o read)
    return row :: rows : Logged (List WireRow)) d

theorem readBehind_of_ended (ended : d.rest = []) :
    readBehind o read row d = (.ok [row] d, []) :=
  if_pos ended

theorem readBehind_of_rest (some_rest : d.rest ≠ []) : readBehind o read row d = (do
    let rows ← (show Logged (List WireRow) from readRowsFrom o read)
    return row :: rows : Logged (List WireRow)) d :=
  if_neg some_rest

theorem readRowsFrom_of_full (full : o.maxRows = some read) :
    readRowsFrom o read c = (Scan.fail (.tooManyRows read) c, []) := by
  rw [readRowsFrom, if_pos full]

/-- One turn of the loop: a row is read unless there are enough. -/
theorem readRowsFrom_eq (room : o.maxRows ≠ some read) :
    readRowsFrom o read = (WireRow.read o.verify >>= readBehind o (read + 1)) := by
  funext c
  rw [readRowsFrom, if_neg room]
  split
  · next next => rw [Logged.bind_of_error next]
  · next row d es next =>
    rw [Logged.bind_of_ok next]
    by_cases ended : d.rest = []
    · rw [readBehind_of_ended ended, if_pos (by simp [Cursor.isEmpty, ended]), List.append_nil]
    · rw [readBehind_of_rest ended, if_neg (by simp [Cursor.isEmpty, ended])]
      split
      · next more => rw [Logged.bind_of_error (p := readRowsFrom o (read + 1)) more]
      · next more =>
        rw [Logged.bind_of_ok (p := readRowsFrom o (read + 1)) more]
        simp [pure]

/-- The same without the reports. -/
def scanBehind (o : DecodeOptions) (read : Nat) (row : WireRow) : Scan (List WireRow) := fun d =>
  if d.rest = [] then .ok [row] d
  else (return row :: (← scanRowsFrom o read) : Scan (List WireRow)) d

theorem silent_readBehind (row : WireRow) :
    (readBehind o read row).silent = scanBehind o read row := by
  funext d
  simp only [Logged.silent, readBehind, scanBehind]
  split
  · rfl
  · exact congrFun (Logged.silent_bind _ _) d

theorem scanBehind_of_ended (ended : d.rest = []) : scanBehind o read row d = .ok [row] d :=
  if_pos ended

theorem scanBehind_of_rest (some_rest : d.rest ≠ []) : scanBehind o read row d =
    (return row :: (← scanRowsFrom o read) : Scan (List WireRow)) d :=
  if_neg some_rest

theorem scanRowsFrom_of_full (full : o.maxRows = some read) :
    scanRowsFrom o read c = Scan.fail (.tooManyRows read) c :=
  congrArg Prod.fst (readRowsFrom_of_full full)

theorem scanRowsFrom_eq (room : o.maxRows ≠ some read) :
    scanRowsFrom o read = (WireRow.scan o.verify >>= scanBehind o (read + 1)) := by
  rw [scanRowsFrom, readRowsFrom_eq room, Logged.silent_bind, WireRow.scan]
  simp only [silent_readBehind]

theorem scanRowsFrom_eq_ok {rows : List WireRow} :
    scanRowsFrom o read c = .ok rows d ↔
      o.maxRows ≠ some read ∧ ∃ row e more, WireRow.scan o.verify c = .ok row e ∧
        rows = row :: more ∧
        if e.rest = [] then more = [] ∧ d = e else scanRowsFrom o (read + 1) e = .ok more d := by
  by_cases full : o.maxRows = some read
  · simp [scanRowsFrom_of_full, full, Scan.not_fail_ok]
  · rw [scanRowsFrom_eq full, Scan.bind_eq_ok]
    simp only [ne_eq, full, not_false_eq_true, true_and]
    refine exists₂_congr fun row e => ?_
    by_cases ended : e.rest = []
    · simp [scanBehind_of_ended ended, ended, eq_comm]
    · simp only [scanBehind_of_rest ended, if_neg ended, exists_and_left]
      refine and_congr_right fun _ => Scan.bind_eq_ok.trans ?_
      constructor
      · rintro ⟨more, _, onward, ⟨⟩⟩
        exact ⟨more, rfl, onward⟩
      · rintro ⟨more, rfl, onward⟩
        exact ⟨more, d, onward, rfl⟩

end Turn

theorem scanRowsFrom_eq_ok_iff {check : Bool} {read : Nat} {c d : Cursor} {rows : List WireRow} :
    scanRowsFrom { verify := check } read c = .ok rows d ↔
      ∃ fs, Rows fs ∧ (check → ∀ f ∈ fs, f.Verified) ∧ c.Spans (rowsBytes fs) d ∧ d.rest = [] ∧
        fs.map (·.wire) = rows := by
  constructor
  · intro run
    induction rows generalizing read c with
    | nil =>
      obtain ⟨_, _, _, _, _, ⟨⟩, _⟩ := scanRowsFrom_eq_ok.mp run
    | cons row rows ih =>
      obtain ⟨_, _, e, _, next, ⟨⟩, onward⟩ := scanRowsFrom_eq_ok.mp run
      obtain ⟨f, span, rfl, some_part, before, verified⟩ := (WireRow.scan_reads check c _ e).mp next
      split at onward
      · next ended =>
        obtain ⟨rfl, rfl⟩ := onward
        refine ⟨[f], rows_singleton.mpr ⟨some_part, ended ▸ before⟩, ?_, ?_, ended, rfl⟩
        · simpa using verified
        · rw [rowsBytes, List.flatMap_cons, List.flatMap_nil, List.append_nil]
          exact span
      · obtain ⟨fs, rows, verified', span', ended, rfl⟩ := ih onward
        refine ⟨f :: fs, rows_cons.mpr ⟨⟨some_part, ?_⟩, .inr rows⟩, fun h => ?_, ?_, ended, rfl⟩
        · rwa [span'.rest, ended, List.append_nil] at before
        · exact List.forall_mem_cons.mpr ⟨verified h, verified' h⟩
        · exact span.trans span'
  · rintro ⟨fs, rows, verified, span, ended, rfl⟩
    induction fs generalizing read c with
    | nil => exact absurd rfl rows.some_row
    | cons f fs ih =>
      obtain ⟨e, span, span'⟩ := Cursor.spans_append.mp span
      obtain ⟨⟨some_part, before⟩, fs_rows⟩ := rows_cons.mp rows
      have rest : e.rest = rowsBytes fs := by rw [span'.rest, ended, List.append_nil]; rfl
      refine scanRowsFrom_eq_ok.mpr ⟨nofun, f.wire, e, fs.map (·.wire), ?_, rfl, ?_⟩
      · refine (WireRow.scan_reads check c _ e).mpr ⟨f, span, rfl, some_part, rest ▸ before, ?_⟩
        exact fun h => verified h f (by simp)
      · rcases fs_rows with rfl | fs_rows
        · rw [if_pos (show e.rest = [] from rest)]
          exact ⟨rfl, Cursor.spans_nil.mp span'⟩
        · rw [if_neg (rest ▸ rowsBytes_ne_nil fs_rows)]
          exact ih fs_rows (fun h x hx => verified h x (List.mem_cons_of_mem f hx)) span'

/-- A buffer that holds the rows `fs`. -/
structure Written (fs : List Row.Form) (b : Bytes) : Prop where
  rows : Rows fs
  bytes : b = word32 header.toNat ++ rowsBytes fs

theorem scanHeader_eq_ok {c d : Cursor} {u : Unit} :
    scanHeader c = .ok u d ↔ c.Spans (word32 header.toNat) d := by
  simp only [scanHeader, Scan.bind_eq_ok, Scan.word32_eq_ok]
  constructor
  · rintro ⟨w, e, span, run⟩
    by_cases same : w = header
    · simp only [same, ne_eq, not_true, if_false, Scan.pure_eq_ok] at run
      obtain ⟨_, rfl⟩ := run
      exact same ▸ span
    · simp only [ne_eq, same, not_false_eq_true, if_true] at run
      exact absurd run Scan.not_fail_ok
  · intro span
    exact ⟨header, d, span, by simp [Scan.pure_eq_ok]⟩

theorem scan_eq_ok_iff {check : Bool} {b : Bytes} {d : Cursor} {rows : List WireRow} :
    scan { verify := check } (.start b) = .ok rows d ↔
      ∃ fs, Written fs b ∧ (check → ∀ f ∈ fs, f.Verified) ∧ d = ⟨b.length, []⟩ ∧
        fs.map (·.wire) = rows := by
  rw [scan_eq, Scan.bind_eq_ok]
  simp only [scanHeader_eq_ok, scanRows, scanRowsFrom_eq_ok_iff]
  constructor
  · rintro ⟨_, e, span, fs, rows, verified, span', ended, content⟩
    obtain ⟨rest, offset⟩ := span.trans span'
    rw [ended, List.append_nil] at rest
    refine ⟨fs, ⟨rows, rest⟩, verified, ?_, content⟩
    rw [← rest, Cursor.start, Nat.zero_add] at offset
    rw [← ended, ← offset]
  · rintro ⟨fs, ⟨rows, rfl⟩, verified, rfl, content⟩
    refine ⟨(), ⟨4, rowsBytes fs⟩, ⟨rfl, rfl⟩, fs, rows, verified, ⟨?_, ?_⟩, rfl, content⟩
    · simp
    · simp

theorem outcome_decodeRows {o : DecodeOptions} {b : Bytes} (some_byte : b ≠ []) :
    (decodeRows o b).outcome =
      match scan o (.start b) with
      | .ok rows _ => .ok rows
      | .error e _ => .error e := by
  have not_empty : ¬ b.isEmpty := by simpa using some_byte
  exact (decodeRows_outcome o b).trans (if_neg not_empty)

theorem decodeRows_outcome_eq_ok {check : Bool} {b : Bytes} {rows : List WireRow} :
    (decodeRows { verify := check } b).outcome = .ok rows ↔
      (b = [] ∧ rows = []) ∨
        ∃ fs, Written fs b ∧ (check → ∀ f ∈ fs, f.Verified) ∧ fs.map (·.wire) = rows := by
  have not_written {fs : List Row.Form} : ¬ Written fs [] := fun h => nomatch h.bytes
  cases b with
  | nil => simp [decodeRows_outcome, not_written, eq_comm]
  | cons x b =>
    have run (rows : List WireRow) := @scan_eq_ok_iff check (x :: b) ⟨(x :: b).length, []⟩ rows
    simp only [true_and] at run
    simp only [decodeRows_outcome, List.isEmpty_cons, Bool.false_eq_true, if_false, reduceCtorEq,
      false_and, false_or, ← run]
    cases h : scan { verify := check } (.start (x :: b)) with
    | error e d => simp
    | ok rows' d =>
      obtain ⟨_, _, _, rfl, _⟩ := scan_eq_ok_iff.mp h
      simp

/-- Without verification, exactly the buffers of the grammar are accepted, what is returned is the
content of their forms, and no buffer has two readings. -/
theorem decodeRows_accepts_grammar (b : Bytes) :
    (∀ rows, (decodeRows { verify := false } b).outcome = .ok rows ↔
      (b = [] ∧ rows = []) ∨ ∃ fs, Written fs b ∧ rows = fs.map (·.wire)) ∧
    (∀ fs gs, Written fs b → Written gs b → fs = gs) := by
  constructor
  · intro rows
    rw [decodeRows_outcome_eq_ok]
    simp [eq_comm]
  · intro fs gs hf hg
    refine hf.rows.ext_of_bytes hg.rows ?_
    exact List.append_cancel_left (hf.bytes.symm.trans hg.bytes)

end TableWire.Buffer
