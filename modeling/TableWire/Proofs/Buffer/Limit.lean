import TableWire.Proofs.Buffer.Grammar
import TableWire.Except
/-!
The limit on the rows of a buffer only cuts the reading of it. Up to the limit the same rows are
read as without one (`outcome_scanRowsFrom_of_reads`), and it is told about before any flaw behind
it.
-/

namespace TableWire

namespace Scan

variable {α β : Type} {p : Scan α} {f : α → Scan β} {c d : Cursor}

/-- What a scan gives, without the place where it ends. -/
def outcome (p : Scan α) (c : Cursor) : Except BufferError α :=
  match p c with
  | .ok a _ => .ok a
  | .error e _ => .error e

theorem outcome_of_ok {a : α} (run : p c = .ok a d) : p.outcome c = .ok a := by
  rw [outcome, run]

theorem outcome_of_error {e : BufferError} (run : p c = .error e d) :
    p.outcome c = .error e := by
  rw [outcome, run]

theorem outcome_congr {q : Scan α} (same : p c = q d) : p.outcome c = q.outcome d := by
  rw [outcome, outcome, same]

theorem outcome_bind_of_ok {a : α} (run : p c = .ok a d) :
    (p >>= f).outcome c = (f a).outcome d :=
  outcome_congr (bind_of_ok run)

theorem outcome_bind_of_error {e : BufferError} (failed : p.outcome c = .error e) :
    (p >>= f).outcome c = .error e := by
  cases run : p c with
  | ok a d => cases (outcome_of_ok run).symm.trans failed
  | error e' d =>
    obtain rfl := Except.error.inj ((outcome_of_error run).symm.trans failed)
    exact outcome_of_error (bind_of_error run)

theorem outcome_bind_pure {g : α → β} :
    (p >>= fun a => pure (g a)).outcome c = (p.outcome c).map g := by
  cases run : p c with
  | ok a d =>
    rw [outcome_bind_of_ok run, outcome_of_ok run]
    rfl
  | error e d =>
    rw [outcome_bind_of_error (outcome_of_error run), outcome_of_error run]
    rfl

end Scan

namespace Buffer

section Rows

variable {check : Bool} {c d : Cursor} {rows : List WireRow}

/-- The rows are read from `c` up to `d`, with input left behind each of them. -/
inductive ReadsRows (check : Bool) : Cursor → List WireRow → Cursor → Prop
  | nil {c : Cursor} : ReadsRows check c [] c
  | cons {c d e : Cursor} {row : WireRow} {rows : List WireRow} :
    WireRow.scan check c = .ok row d → d.rest ≠ [] → ReadsRows check d rows e →
    ReadsRows check c (row :: rows) e

theorem ReadsRows.take (h : ReadsRows check c rows d) (n : Nat) :
    ∃ e, ReadsRows check c (rows.take n) e := by
  induction h generalizing n with
  | @nil c => exact ⟨c, List.take_nil.symm ▸ .nil⟩
  | cons next some_rest _ ih =>
    cases n with
    | zero => exact ⟨_, .nil⟩
    | succ n =>
      obtain ⟨e, more⟩ := ih n
      exact ⟨e, .cons next some_rest more⟩

/-- No row with input behind it is read at `d`. -/
def Last (check : Bool) (d : Cursor) : Prop :=
  ∀ row e, WireRow.scan check d = .ok row e → e.rest = []

/-- Rows are read until there is a last one, or one that is refused. -/
theorem exists_readsRows (check : Bool) (c : Cursor) :
    ∃ rows d, ReadsRows check c rows d ∧ Last check d := by
  induction c using rows_induction check with
  | turn c ih =>
    by_cases last : Last check c
    · exact ⟨[], c, .nil, last⟩
    · simp only [Last, not_forall] at last
      obtain ⟨row, d, next, some_rest⟩ := last
      obtain ⟨rows, e, reads, last⟩ := ih row d next
      exact ⟨row :: rows, e, .cons next some_rest reads, last⟩

variable {o : DecodeOptions} {read : Nat}

theorem outcome_scanBehind_of_rest {row : WireRow} (some_rest : d.rest ≠ []) :
    (scanBehind o read row).outcome d =
      (Scan.outcome (scanRowsFrom o read) d).map fun rows => row :: rows := by
  rw [Scan.outcome_congr (scanBehind_of_rest some_rest)]
  exact Scan.outcome_bind_pure

/-- As long as the limit allows, the loop goes on behind rows that can be read. -/
theorem outcome_scanRowsFrom_of_reads (h : ReadsRows o.verify c rows d)
    (room : ∀ l ∈ o.maxRows, read + rows.length ≤ l) :
    Scan.outcome (scanRowsFrom o read) c =
      (Scan.outcome (scanRowsFrom o (read + rows.length)) d).map fun more => rows ++ more := by
  induction h generalizing read with
  | @nil c => cases Scan.outcome (scanRowsFrom o read) c <;> simp [Except.map]
  | @cons c d e row rows next some_rest _ ih =>
    rw [List.length_cons] at room ⊢
    have not_full : o.maxRows ≠ some read := fun full => by
      have := room read full
      omega
    have within : ∀ l ∈ o.maxRows, read + 1 + rows.length ≤ l := fun l hl => by
      have := room l hl
      omega
    rw [scanRowsFrom_eq not_full, Scan.outcome_bind_of_ok next,
      outcome_scanBehind_of_rest some_rest, ih within, Nat.add_right_comm read, Nat.add_assoc read]
    cases Scan.outcome (scanRowsFrom o (read + (rows.length + 1))) e <;> rfl

theorem outcome_scanRowsFrom_of_last (last : Last o.verify d) (room : o.maxRows ≠ some read) :
    Scan.outcome (scanRowsFrom o read) d =
      ((WireRow.scan o.verify).outcome d).map fun row => [row] := by
  rw [scanRowsFrom_eq room]
  cases next : WireRow.scan o.verify d with
  | ok row e =>
    rw [Scan.outcome_bind_of_ok next, Scan.outcome_of_ok next,
      Scan.outcome_of_ok (scanBehind_of_ended (last row e next))]
    rfl
  | error fault e =>
    have failed := Scan.outcome_of_error next
    rw [Scan.outcome_bind_of_error failed, failed]
    rfl

/-- Within the limit, the outcome is that of the row behind which no other is read. -/
theorem outcome_scanRows_of_room (h : ReadsRows o.verify c rows d) (last : Last o.verify d)
    (room : ∀ l ∈ o.maxRows, rows.length < l) : (scanRows o).outcome c =
      ((WireRow.scan o.verify).outcome d).map fun row => rows ++ [row] := by
  have not_full : o.maxRows ≠ some (0 + rows.length) := fun full => by
    have := room _ full
    omega
  have within (l : Nat) (hl : l ∈ o.maxRows) : 0 + rows.length ≤ l := by
    have := room l hl
    omega
  rw [scanRows, outcome_scanRowsFrom_of_reads h within, outcome_scanRowsFrom_of_last last not_full]
  cases (WireRow.scan o.verify).outcome d <;> rfl

/-- With as many rows read as the limit allows, it is told about, whatever follows. -/
theorem outcome_scanRows_of_full {n : Nat} (h : ReadsRows o.verify c rows d)
    (limit : o.maxRows = some n) (full : n ≤ rows.length) :
    (scanRows o).outcome c = .error (.tooManyRows n) := by
  -- the loop stops behind the first `n` rows, whether or not more of them can be read
  obtain ⟨e, reads⟩ := h.take n
  have enough : 0 + (rows.take n).length = n := by
    rw [List.length_take, Nat.min_eq_left full, Nat.zero_add]
  have within (l : Nat) (hl : l ∈ o.maxRows) : 0 + (rows.take n).length ≤ l := by
    rw [enough]
    exact (Option.some.inj (limit.symm.trans hl)).le
  rw [scanRows, outcome_scanRowsFrom_of_reads reads within, enough,
    Scan.outcome_of_error (scanRowsFrom_of_full limit)]
  rfl

end Rows

section Buffers

variable {o : DecodeOptions} {check : Bool} {b : Bytes} {rows : List WireRow} {d : Cursor}
  {n : Nat} {e : BufferError}

/-- Behind the header of the buffer, the rows are read up to `d`. -/
def Reaches (check : Bool) (b : Bytes) (rows : List WireRow) (d : Cursor) : Prop :=
  ∃ c, scanHeader (.start b) = .ok () c ∧ ReadsRows check c rows d

def FailsInHeader (b : Bytes) (e : BufferError) : Prop := scanHeader.outcome (.start b) = .error e

/-- Behind `k` rows one is refused for `e`. -/
def FailsInRow (check : Bool) (b : Bytes) (k : Nat) (e : BufferError) : Prop :=
  ∃ rows d, Reaches check b rows d ∧ rows.length = k ∧ (WireRow.scan check).outcome d = .error e

theorem Reaches.ne_nil (h : Reaches check b rows d) : b ≠ [] := by
  rintro rfl
  obtain ⟨c, header, _⟩ := h
  cases header

theorem outcome_decodeRows_eq (some_byte : b ≠ []) :
    (decodeRows o b).outcome = (scan o).outcome (.start b) := by
  rw [outcome_decodeRows some_byte, Scan.outcome]
  cases scan o (.start b) <;> rfl

theorem FailsInHeader.outcome (some_byte : b ≠ []) (h : FailsInHeader b e) :
    (decodeRows o b).outcome = .error e := by
  rw [outcome_decodeRows_eq some_byte, scan_eq]
  exact Scan.outcome_bind_of_error h

/-- The header is at fault, or rows are read until there is a last one or one that is refused. -/
theorem failsInHeader_or_reaches (check : Bool) (b : Bytes) :
    (∃ e, FailsInHeader b e) ∨ ∃ rows d, Reaches check b rows d ∧ Last check d := by
  cases header : scanHeader (.start b) with
  | error e c => exact .inl ⟨e, Scan.outcome_of_error header⟩
  | ok u c =>
    obtain ⟨rows, d, reads, last⟩ := exists_readsRows check c
    exact .inr ⟨rows, d, ⟨c, header, reads⟩, last⟩

theorem Reaches.outcome_of_room (h : Reaches o.verify b rows d) (last : Last o.verify d)
    (room : ∀ l ∈ o.maxRows, rows.length < l) : (decodeRows o b).outcome =
      ((WireRow.scan o.verify).outcome d).map fun row => rows ++ [row] := by
  obtain ⟨c, header, reads⟩ := id h
  rw [outcome_decodeRows_eq h.ne_nil, scan_eq, Scan.outcome_bind_of_ok header]
  exact outcome_scanRows_of_room reads last room

theorem Reaches.outcome_of_full (h : Reaches o.verify b rows d) (limit : o.maxRows = some n)
    (full : n ≤ rows.length) : (decodeRows o b).outcome = .error (.tooManyRows n) := by
  obtain ⟨c, header, reads⟩ := id h
  rw [outcome_decodeRows_eq h.ne_nil, scan_eq, Scan.outcome_bind_of_ok header]
  exact outcome_scanRows_of_full reads limit full

theorem Reaches.outcome (h : Reaches check b rows d) (last : Last check d) :
    (decodeRows { verify := check } b).outcome =
      ((WireRow.scan check).outcome d).map fun row => rows ++ [row] :=
  Reaches.outcome_of_room (o := { verify := check }) h last nofun

/-- Whether the limit is met only depends on how many rows there are before the last. -/
theorem Reaches.outcome_limited (h : Reaches check b rows d) (last : Last check d) :
    (decodeRows { verify := check, maxRows := some n } b).outcome =
      if rows.length < n then (decodeRows { verify := check } b).outcome
      else .error (.tooManyRows n) := by
  split
  · next room =>
    rw [h.outcome last]
    exact Reaches.outcome_of_room (o := { verify := check, maxRows := some n }) h last (by simpa)
  · next full =>
    have enough := Nat.le_of_not_lt full
    exact Reaches.outcome_of_full (o := { verify := check, maxRows := some n }) h rfl enough

/-- A row that is refused is so unless the limit is met before. -/
theorem FailsInRow.outcome (h : FailsInRow check b n e) :
    (decodeRows { verify := check } b).outcome = .error e ∧
      ∀ l, (decodeRows { verify := check, maxRows := some l } b).outcome =
        if n < l then .error e else .error (.tooManyRows l) := by
  obtain ⟨rows, d, reaches, rfl, failed⟩ := h
  have last : Last check d := fun row e' next => by
    cases (Scan.outcome_of_ok next).symm.trans failed
  have unlimited : (decodeRows { verify := check } b).outcome = .error e := by
    rw [reaches.outcome last, failed]
    rfl
  exact ⟨unlimited, fun l => unlimited ▸ reaches.outcome_limited last⟩

/-- Reading without a limit fails in the header or in a row. -/
theorem failsInHeader_or_failsInRow (some_byte : b ≠ [])
    (failed : (decodeRows { verify := check } b).outcome = .error e) :
    FailsInHeader b e ∨ ∃ k, FailsInRow check b k e := by
  obtain ⟨e', header⟩ | ⟨rows, d, reaches, last⟩ := failsInHeader_or_reaches check b
  · obtain rfl := Except.error.inj ((header.outcome some_byte).symm.trans failed)
    exact .inl header
  · rw [reaches.outcome last] at failed
    exact .inr ⟨rows.length, rows, d, reaches, rfl, Except.map_eq_error.mp failed⟩

theorem outcome_limited_of_ok (some_byte : b ≠ [])
    (read : (decodeRows { verify := check } b).outcome = .ok rows) :
    (decodeRows { verify := check, maxRows := some n } b).outcome =
      if rows.length ≤ n then .ok rows else .error (.tooManyRows n) := by
  obtain ⟨e', header⟩ | ⟨before, d, reaches, last⟩ := failsInHeader_or_reaches check b
  · cases (header.outcome some_byte).symm.trans read
  · have limited := reaches.outcome_limited last (n := n)
    rw [read] at limited
    rw [reaches.outcome last] at read
    obtain ⟨row, _, rfl⟩ := Except.map_eq_ok.mp read
    rw [List.length_append, List.length_singleton]
    exact limited

/-- With a limit of one row, a buffer is read when there is one row in it. -/
theorem outcome_one_eq_ok_iff (some_byte : b ≠ []) :
    (decodeRows { verify := check, maxRows := some 1 } b).outcome = .ok rows ↔
      ∃ row, rows = [row] ∧ (decodeRows { verify := check } b).outcome = .ok [row] := by
  constructor
  · intro limited
    obtain ⟨e', header⟩ | ⟨before, d, reaches, last⟩ := failsInHeader_or_reaches check b
    · cases (header.outcome some_byte).symm.trans limited
    · rw [reaches.outcome_limited last] at limited
      split at limited
      · next room =>
        obtain rfl := List.length_eq_zero_iff.mp (Nat.lt_one_iff.mp room)
        obtain ⟨row, _, rfl⟩ := Except.map_eq_ok.mp ((reaches.outcome last).symm.trans limited)
        exact ⟨row, rfl, limited⟩
      · cases limited
  · rintro ⟨row, rfl, read⟩
    exact outcome_limited_of_ok some_byte read

theorem decodeRows_nil (o : DecodeOptions) : (decodeRows o []).outcome = .ok [] := rfl

/-- The first row is the only one of the buffer, and there is none in empty input alone. -/
theorem decodeFirst_outcome :
    ((decodeFirst o b).outcome = .ok none ↔ b = []) ∧
    (∀ r, (decodeFirst o b).outcome = .ok (some r) ↔
      ∃ row, (decodeRows { verify := o.verify } b).outcome = .ok [row] ∧ row.flatten = r) ∧
    ∀ e, (decodeFirst o b).outcome = .error e ↔
      (decodeRows { verify := o.verify, maxRows := some 1 } b).outcome = .error e := by
  have first : (decodeFirst o b).outcome =
      (decodeRows { verify := o.verify, maxRows := some 1 } b).outcome.map
        (·.head?.map WireRow.flatten) := rfl
  rw [first]
  refine ⟨?_, fun r => ?_, fun e => Except.map_eq_error⟩
  · constructor
    · intro none
      by_contra some_byte
      obtain ⟨rows, limited, no_row⟩ := Except.map_eq_ok.mp none
      obtain ⟨row, rfl, _⟩ := (outcome_one_eq_ok_iff some_byte).mp limited
      cases no_row
    · rintro rfl
      rfl
  · by_cases empty : b = []
    · subst empty
      simp [decodeRows_nil, Except.map]
    · constructor
      · intro some
        obtain ⟨rows, limited, head⟩ := Except.map_eq_ok.mp some
        obtain ⟨row, rfl, read⟩ := (outcome_one_eq_ok_iff empty).mp limited
        exact ⟨row, read, Option.some.inj head⟩
      · rintro ⟨row, read, rfl⟩
        rw [(outcome_one_eq_ok_iff empty).mpr ⟨row, rfl, read⟩]
        rfl

/-- The limit on the rows cuts the reading of a buffer and does not change it. Without a limit,
reading fails in the header, or in a row behind `k` others; with a limit of `n` rows it fails alike,
unless `k` is not less than `n`. What is read without a limit is read with it, unless there are more
than `n` rows. To read the first row is to read with a limit of one, whatever limit is given. -/
theorem decodeRows_limit (check : Bool) (n : Nat) (b : Bytes) :
    (b ≠ [] → ∀ rows, (decodeRows { verify := check } b).outcome = .ok rows →
      (decodeRows { verify := check, maxRows := some n } b).outcome =
        if rows.length ≤ n then .ok rows else .error (.tooManyRows n)) ∧
    (b ≠ [] → ∀ e, (decodeRows { verify := check } b).outcome = .error e →
      FailsInHeader b e ∨ ∃ k, FailsInRow check b k e) ∧
    (b ≠ [] → ∀ e, FailsInHeader b e →
      (decodeRows { verify := check } b).outcome = .error e ∧
        (decodeRows { verify := check, maxRows := some n } b).outcome = .error e) ∧
    (∀ k e, FailsInRow check b k e →
      (decodeRows { verify := check } b).outcome = .error e ∧
        (decodeRows { verify := check, maxRows := some n } b).outcome =
          if k < n then .error e else .error (.tooManyRows n)) ∧
    (∀ o, (decodeRows o []).outcome = .ok []) ∧
    ∀ limit, let o : DecodeOptions := { verify := check, maxRows := limit }
      ((decodeFirst o b).outcome = .ok none ↔ b = []) ∧
      (∀ r, (decodeFirst o b).outcome = .ok (some r) ↔
        ∃ row, (decodeRows { verify := check } b).outcome = .ok [row] ∧ row.flatten = r) ∧
      ∀ e, (decodeFirst o b).outcome = .error e ↔
        (decodeRows { verify := check, maxRows := some 1 } b).outcome = .error e := by
  refine ⟨fun some_byte rows read => outcome_limited_of_ok some_byte read,
    fun some_byte e failed => failsInHeader_or_failsInRow some_byte failed,
    fun some_byte e failed => ⟨failed.outcome some_byte, failed.outcome some_byte⟩,
    fun k e failed => ⟨failed.outcome.1, failed.outcome.2 n⟩, decodeRows_nil,
    fun limit => decodeFirst_outcome⟩

theorem decodeRows_limit_of_two_rows :
    let b : Bytes := [0x75, 0, 0, 0, 1, 3, 4, 1, 0, 0, 0, 97, 9, 174,
      2, 3, 4, 1, 0, 0, 0, 98, 10, 41, 9, 19]
    let first : WireRow := { primaryKey := [⟨{ name := "a" }, none, 32⟩], stored := some 174 }
    let second : WireRow := { attributes := [⟨{ name := "b" }, some 41, 41⟩], stored := some 19 }
    let decode (n : Nat) (b : Bytes) := (decodeRows { verify := true, maxRows := some n } b).outcome
    decode 2 b = .ok [first, second] ∧ decode 1 b = .error (.tooManyRows 1) ∧
      FailsInRow true (b.take 25) 1 (.truncated 25 1 0) ∧
      decode 2 (b.take 25) = .error (.truncated 25 1 0) ∧
      decode 1 (b.take 25) = .error (.tooManyRows 1) ∧
      decode 0 (0 :: b) = .error (.noHeader 0x7500) ∧
      (decodeFirst { verify := true, maxRows := some 0 } (b.take 14)).outcome =
        .ok (some first.flatten) := by
  intro b first second decode
  obtain ⟨limited, _⟩ := decodeRows_limit true 1 b
  obtain ⟨within, _⟩ := decodeRows_limit true 2 b
  obtain ⟨_, split, _, cut_one, _⟩ := decodeRows_limit true 1 (b.take 25)
  obtain ⟨_, _, _, cut_two, _⟩ := decodeRows_limit true 2 (b.take 25)
  obtain ⟨_, _, refused, _⟩ := decodeRows_limit true 0 (0 :: b)
  obtain ⟨_, _, _, _, _, first_row⟩ := decodeRows_limit true 1 (b.take 14)
  have read : (decodeRows { verify := true } b).outcome = .ok [first, second] := by decide +kernel
  have one : (decodeRows { verify := true } (b.take 14)).outcome = .ok [first] := by decide +kernel
  have failed : (decodeRows { verify := true } (b.take 25)).outcome =
      .error (.truncated 25 1 0) := by
    decide +kernel
  have header : FailsInHeader (0 :: b) (.noHeader 0x7500) := by
    unfold FailsInHeader
    decide +kernel
  have in_row : FailsInRow true (b.take 25) 1 (.truncated 25 1 0) := by
    obtain in_header | ⟨k, in_row⟩ := split (by decide) _ failed
    · unfold FailsInHeader at in_header
      exact absurd in_header (by decide +kernel)
    · have met : decode 1 (b.take 25) = .error (.tooManyRows 1) := by decide +kernel
      have unmet : decode 2 (b.take 25) = .error (.truncated 25 1 0) := by decide +kernel
      have some_row : ¬ k < 1 := fun room => by
        cases met.symm.trans ((cut_one k _ in_row).2.trans (if_pos room))
      have one_row : k < 2 := by
        by_contra full
        cases unmet.symm.trans ((cut_two k _ in_row).2.trans (if_neg full))
      obtain rfl : k = 1 := by omega
      exact in_row
  refine ⟨within (by decide) _ read, limited (by decide) _ read, in_row, (cut_two 1 _ in_row).2,
    (cut_one 1 _ in_row).2, (refused (by decide) _ header).2, ?_⟩
  exact ((first_row (some 0)).2.1 first.flatten).mpr ⟨first, one, rfl⟩

end Buffers

end Buffer

end TableWire
