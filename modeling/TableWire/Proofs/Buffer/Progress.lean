import TableWire.Proofs.Buffer.Grammar
import TableWire.Proofs.Scan.Session
/-!
Reading gets ahead. Each row leaves a byte behind at least, so the loop over the rows ends before it
has read more of them than there are bytes behind the header.
-/

namespace TableWire

/-- A row that has been read is not empty. -/
theorem WireRow.offset_lt_of_scan {check : Bool} {c d : Cursor} {row : WireRow}
    (run : WireRow.scan check c = .ok row d) : c.offset < d.offset := by
  have := ((forward_scan check).ok run).offset_add_remaining
  have := remaining_lt_of_scan run
  omega

namespace Buffer

/-- The loop over the rows, given up at the row that comes behind `n` others. -/
def scanRowsWithin (o : DecodeOptions) (n read : Nat) (c : Cursor) :
    Option (EStateM.Result BufferError Cursor (List WireRow)) :=
  if o.maxRows = some read then some (Scan.fail (.tooManyRows read) c)
  else
    match WireRow.scan o.verify c with
    | .error e d => some (.error e d)
    | .ok row d =>
      match n with
      | 0 => none
      | n + 1 =>
        if d.isEmpty then some (.ok [row] d)
        else
          match scanRowsWithin o n (read + 1) d with
          | none => none
          | some (.error e d') => some (.error e d')
          | some (.ok rows d') => some (.ok (row :: rows) d')

variable {o : DecodeOptions} {n read : Nat} {c d : Cursor} {rows : List WireRow} {b : Bytes}

/-- The loop never gets further than the bytes allow. -/
theorem scanRowsWithin_eq (enough : c.remaining ≤ n) :
    scanRowsWithin o n read c = some (scanRowsFrom o read c) := by
  induction n using Nat.strong_induction_on generalizing read c with
  | _ n ih =>
    rw [scanRowsWithin]
    by_cases full : o.maxRows = some read
    · rw [if_pos full, scanRowsFrom_of_full full]
    · rw [if_neg full, scanRowsFrom_eq full]
      cases next : WireRow.scan o.verify c with
      | error e d => rw [Scan.bind_of_error next]
      | ok row d =>
        have shorter := WireRow.remaining_lt_of_scan next
        obtain ⟨n, rfl⟩ : ∃ m, n = m + 1 := ⟨n - 1, by omega⟩
        rw [Scan.bind_of_ok next]
        dsimp only
        rw [ih n (Nat.lt_succ_self n) (by omega)]
        by_cases ended : d.rest = []
        · rw [scanBehind_of_ended ended, if_pos (by simp [Cursor.isEmpty, ended])]
        · rw [scanBehind_of_rest ended, if_neg (by simp [Cursor.isEmpty, ended])]
          cases more : scanRowsFrom o (read + 1) d with
          | ok rows d' => rw [Scan.bind_of_ok more]; rfl
          | error e d' => rw [Scan.bind_of_error more]

theorem length_le_of_scanRowsFrom (run : scanRowsFrom o read c = .ok rows d) :
    rows.length ≤ c.remaining := by
  induction rows generalizing read c with
  | nil => exact Nat.zero_le _
  | cons row rows ih =>
    obtain ⟨_, _, e, more, next, same, onward⟩ := scanRowsFrom_eq_ok.mp run
    obtain ⟨rfl, rfl⟩ := List.cons.inj same
    have shorter := WireRow.remaining_lt_of_scan next
    rw [List.length_cons]
    split at onward
    · obtain ⟨rfl, _⟩ := onward
      rw [List.length_nil]
      omega
    · exact Nat.lt_of_le_of_lt (ih onward) shorter

theorem remaining_of_scanHeader {u : Unit} (run : scanHeader (.start b) = .ok u c) :
    c.remaining = b.length - 4 := by
  have size := congrArg List.length (scanHeader_eq_ok.mp run).rest
  rw [List.length_append, length_word32] at size
  exact Nat.eq_sub_of_add_eq' size.symm

theorem length_le_of_decodeRows (run : (decodeRows o b).outcome = .ok rows) :
    rows.length ≤ b.length - 4 := by
  by_cases none : b = []
  · subst none
    cases run
    exact Nat.zero_le _
  · rw [outcome_decodeRows none] at run
    split at run
    · next scanned =>
      cases run
      rw [scan_eq] at scanned
      obtain ⟨_, c, header, behind⟩ := Scan.bind_eq_ok.mp scanned
      exact remaining_of_scanHeader header ▸ length_le_of_scanRowsFrom behind
    · cases run

/-- Readers of a buffer, however they are opened and used, stay between the ends of their windows
and never go back. They answer with the bytes of the buffer at their places, and fail, without
moving, when there are too few. A row that is read is not empty, and as many rows as there are bytes
behind the header are enough for the loop over them to end. -/
theorem readers_safe (b : Bytes) :
    (∀ as, ∀ r ∈ Session.run b as, r.Safe b ∧
      (∀ q a d, Reading.scan q r.cursor = .ok a d → r.Reads b q a d) ∧
      (∀ tag found d, Scan.accept tag r.cursor = .ok found d →
        r.cursor.offset < r.stop ∧ (found ↔ b[r.cursor.offset]? = some tag)) ∧
      ∀ q e d, Reading.scan q r.cursor = .error e d → d.Lacks e ∧ (q ≠ .sized → d = r.cursor)) ∧
    (∀ as more, Session.Continues (Session.run b as) (Session.run b (as ++ more))) ∧
    (∀ check c d row, WireRow.scan check c = .ok row d → c.offset + 1 ≤ d.offset) ∧
    ∀ o, (∀ c, scanHeader (.start b) = .ok () c →
        scanRowsWithin o (b.length - 4) 0 c = some (scanRows o c)) ∧
      ∀ rows, (decodeRows o b).outcome = .ok rows → rows.length ≤ b.length - 4 := by
  refine ⟨fun as r hr => ?_, Session.run_continues b, fun _ _ _ _ => WireRow.offset_lt_of_scan,
    fun o => ⟨fun c header => ?_, fun rows => length_le_of_decodeRows⟩⟩
  · have placed := Session.run_placed b as r hr
    exact ⟨placed.safe, fun _ _ _ => placed.reads, fun _ _ _ => placed.accepts,
      fun _ _ _ => Reading.lacks_of_error⟩
  · exact scanRowsWithin_eq (remaining_of_scanHeader header).le

theorem readers_safe_in_window :
    let b : Bytes := [0x75, 0, 0, 0, 1, 3, 4, 1, 0, 0, 0, 97, 9, 174]
    let as : List Session.Action :=
      [.start, .read 0 .word32, .read 0 (.window 3), .read 1 .byte, .read 1 (.take 5), .seek 99]
    let outer : Reader := ⟨.start b, ⟨7, [1, 0, 0, 0, 97, 9, 174]⟩⟩
    let inner : Reader := ⟨⟨4, [1, 3, 4]⟩, ⟨5, [3, 4]⟩⟩
    Session.run b as = [outer, inner, .enter ⟨14, []⟩] ∧ inner.Safe b ∧
      outer.Reads b (.window 3) (⟨7, [1, 0, 0]⟩ : Cursor) ⟨10, [0, 97, 9, 174]⟩ ∧
      inner.cursor.Lacks (.truncated 5 5 2) ∧
      Session.Continues (Session.run b (as.take 4)) (Session.run b as) ∧
      ∃ rows, (decodeRows {} b).outcome = .ok rows ∧ rows.length ≤ 10 := by
  intro b as outer inner
  obtain ⟨safe, continues, _, rows⟩ := readers_safe b
  have readers : Session.run b as = [outer, inner, .enter ⟨14, []⟩] := by decide +kernel
  obtain ⟨_, reads, _⟩ := safe as outer (by simp [readers])
  obtain ⟨inside, _, _, refused⟩ := safe as inner (by simp [readers])
  have failed : Scan.take 5 inner.cursor = .error (.truncated 5 5 2) inner.cursor := rfl
  refine ⟨readers, inside, reads _ _ _ rfl, (refused (.take 5) _ _ failed).1, continues _ _, ?_⟩
  obtain ⟨read, run⟩ : ∃ read, (decodeRows {} b).outcome = .ok read := by
    refine ⟨[{ primaryKey := [⟨{ name := "a" }, none, 32⟩], stored := some 174 }], ?_⟩
    decide +kernel
  exact ⟨read, run, (rows {}).2 read run⟩

end Buffer

end TableWire
