import TableWire.Proofs.Scan.Relocation
import TableWire.Row.Wire
/-!
The scanners of values, cells and rows at another place: their content is the same there, and only
the places of stored checksums move.
-/

namespace TableWire

open Scan

variable {n : Nat}

namespace Value

theorem moves_scanText : Moves n id scanText scanText := by
  refine moves_sized.located.bind fun (offset, bytes) => ?_
  dsimp only [Prod.map, id]
  cases Utf8.decode? bytes with
  | none => exact moves_fail id (.invalidUtf8 offset)
  | some s => exact moves_pure id s

theorem moves_scanPayload (k : Kind) : Moves n id (scanPayload k) (scanPayload k) := by
  cases k with
  | int => exact moves_word64.map fun _ => rfl
  | double => exact moves_word64.map fun _ => rfl
  | bool => exact moves_byte.map fun _ => rfl
  | str => exact moves_scanText.map fun _ => rfl
  | blob => exact moves_sized.map fun _ => rfl
  | null => exact moves_pure id _
  | infMin => exact moves_pure id _
  | infMax => exact moves_pure id _
  | autoIncrement => exact moves_pure id _

theorem moves_scanBehind (code : UInt8) (offset : Nat) :
    Moves n id (scanBehind code offset) (scanBehind code (offset + n)) := by
  unfold scanBehind
  cases Kind.ofCode? code with
  | none => exact moves_fail id (.unknownValueType code offset)
  | some k => exact moves_scanPayload k

theorem moves_scan : Moves n id scan scan :=
  moves_byte.located.bind fun (offset, code) => moves_scanBehind code offset

end Value

/-- The place of a stored checksum moves, and its mismatch with it. -/
theorem moves_matchStored (check : Bool) (scope : Scope) (computed : UInt8)
    (stored : Option (Nat × UInt8)) :
    Moves n id (matchStored check scope computed stored)
      (matchStored check scope computed (stored.map (Prod.map (· + n) id))) := by
  cases stored with
  | none => exact moves_pure id ()
  | some stored =>
    simp only [matchStored, Option.map_some, Prod.map, id]
    split
    · exact moves_fail id (.checksumMismatch scope stored.2 computed stored.1)
    · exact moves_pure id ()

namespace WireCell

theorem moves_scanName : Moves n id scanName scanName := by
  refine moves_position.bind fun offset => ?_
  refine (moves_accept _).bind fun found => ?_
  cases found
  · exact moves_fail id (.missingName offset)
  · exact Value.moves_scanText

theorem moves_scanValue : Moves n id scanValue scanValue := by
  refine moves_word32.bind fun size => ?_
  refine (moves_window _).bind fun field => ?_
  refine (moves_within Value.moves_scan field).bind fun (value, left) => ?_
  dsimp only [Prod.map, id, Cursor.move_rest]
  cases left.rest with
  | nil => exact moves_pure id (field.rest, value)
  | cons b bs => exact moves_fail id (.unexpectedTag b left.offset)

theorem moves_scanOperation : Moves n id scanOperation scanOperation := by
  refine moves_byte.located.bind fun (offset, code) => ?_
  dsimp only [Prod.map, id]
  cases Operation.ofCode? code with
  | none => exact moves_fail id (.unknownOperation code offset)
  | some o => exact moves_pure id o

theorem moves_scanTimestamp : Moves n id scanTimestamp scanTimestamp :=
  moves_word64.map fun _ => rfl

theorem moves_scanParts :
    Moves n (Prod.map id (Option.map (Prod.map (· + n) id))) scanParts scanParts := by
  refine moves_scanName.bind fun name => ?_
  refine (moves_scanValue.optional _).bind fun value => ?_
  refine (moves_scanOperation.optional _).bind fun operation => ?_
  refine (moves_scanTimestamp.optional _).bind fun timestamp => ?_
  refine (moves_byte.located.optional _).bind fun stored => ?_
  have content : (stored.map (Prod.map (· + n) id)).map (·.2) = stored.map (·.2) := by
    simp [Option.map_map, Function.comp_def]
  simp only [Option.map_id, id, content]
  exact moves_pure (Prod.map id (Option.map (Prod.map (· + n) id))) (_, stored)

theorem moves_scan (check : Bool) : Moves n id (scan check) (scan check) := by
  rw [scan_eq]
  refine moves_scanParts.bind fun (cell, stored) => ?_
  exact (moves_matchStored _ _ _ stored).bind fun _ => moves_pure id cell

end WireCell

namespace WireRow

theorem moves_scanGroup (check : Bool) (g : Group) :
    Moves n id (scanGroup check g) (scanGroup check g) := by
  rw [scanGroup_eq]
  refine (moves_accept _).bind fun found => ?_
  cases found
  · exact moves_pure id []
  · exact (WireCell.moves_scan check).items _ _

theorem moves_scanParts (check : Bool) :
    Moves n (Prod.map id (Option.map (Prod.map (· + n) id))) (scanParts check)
      (scanParts check) := by
  rw [scanParts_eq]
  refine (moves_scanGroup _ _).bind fun primaryKey => ?_
  refine (moves_scanGroup _ _).bind fun attributes => ?_
  refine (moves_accept _).bind fun deleted => ?_
  refine (moves_byte.located.optional _).bind fun stored => ?_
  have content : (stored.map (Prod.map (· + n) id)).map (·.2) = stored.map (·.2) := by
    simp [Option.map_map, Function.comp_def]
  simp only [id, content]
  exact moves_pure (Prod.map id (Option.map (Prod.map (· + n) id))) (_, stored)

theorem moves_demandProgress (start : Nat) :
    Moves n id (demandProgress start) (demandProgress (start + n)) := by
  refine moves_position.bind fun here => ?_
  simp only [Nat.add_right_cancel_iff]
  split
  · exact moves_peek.bind fun b => moves_fail id (.unexpectedTag b start)
  · exact moves_pure id ()

theorem moves_scan (check : Bool) : Moves n id (scan check) (scan check) := by
  rw [scan_eq]
  refine moves_position.bind fun start => ?_
  refine (moves_scanParts check).bind fun (row, stored) => ?_
  refine (moves_demandProgress start).bind fun _ => ?_
  exact (moves_matchStored _ _ _ stored).bind fun _ => moves_pure id row

end WireRow

end TableWire
