import TableWire.Proofs.Buffer.Grammar
import TableWire.Proofs.Row.Blame
/-!
Whatever refuses a buffer is found in it: every error of reading rows is true of the buffer.
-/

namespace TableWire.Buffer

open Scan

variable {b : Bytes}

theorem honest_scanHeader {limit : Option Nat} : HonestAt limit b scanHeader (.start b) := by
  have inside := Cursor.in_start b
  refine (honest_word32 _ inside).bind fun found c run inside' => ?_
  split
  · next other =>
    refine honestAt_fail ?_ c
    exact ⟨inside.stands (word32_eq_ok.mp run), other⟩
  · exact inside'

/-- The limit is only told about when it is reached. -/
theorem honest_scanRowsFrom (o : DecodeOptions) (read : Nat) :
    Honest o.maxRows b (scanRowsFrom o read) := by
  intro c inside
  induction c using rows_induction o.verify generalizing read with
  | turn c ih =>
    by_cases full : o.maxRows = some read
    · unfold HonestAt
      rw [scanRowsFrom_of_full full]
      exact full
    · rw [scanRowsFrom_eq full]
      refine (WireRow.honest_scan o.verify c inside).bind fun row d next inside' => ?_
      by_cases ended : d.rest = []
      · rw [HonestAt, scanBehind_of_ended ended]
        exact inside'
      · rw [HonestAt, scanBehind_of_rest ended]
        refine (ih row d next _ inside').bind fun rows e _ => ?_
        exact honest_pure (row :: rows) e

/-- Every error blames a real place in the buffer: what it reports stands there, and is not what the
grammar asks for at this place. A limit on the rows is the one that was set. -/
theorem decodeRows_blames {o : DecodeOptions} {e : BufferError}
    (refused : (decodeRows o b).outcome = .error e) : e.Blames o.maxRows b := by
  cases b with
  | nil => cases refused
  | cons x xs =>
    have honest : HonestAt o.maxRows (x :: xs) (scan o) (.start (x :: xs)) := by
      rw [scan_eq]
      exact honest_scanHeader.bind fun _ c _ inside => honest_scanRowsFrom o 0 c inside
    rw [outcome_decodeRows (by simp)] at refused
    cases run : scan o (.start (x :: xs)) with
    | ok rows d => simp [run] at refused
    | error e' d =>
      rw [run] at refused
      cases refused
      exact honest.blames run

theorem decodeRows_blames_field :
    let b : Bytes := [0x75, 0, 0, 0, 1, 3, 4, 1, 0, 0, 0, 97, 5, 6, 0, 0, 0, 3, 1, 0, 0, 0, 255]
    (decodeRows {} b).outcome = .error (.invalidUtf8 18) ∧
      ∃ bs, bs.length < UInt32.size ∧ sizedBytes bs <+: b.drop 18 ∧ ∀ s, Utf8.encode s ≠ bs := by
  intro b
  have refused : (decodeRows {} b).outcome = .error (.invalidUtf8 18) := by decide +kernel
  exact ⟨refused, decodeRows_blames refused⟩

end TableWire.Buffer
