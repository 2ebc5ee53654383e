import TableWire.Row.Basic
import TableWire.Scan.Logged
/-!
Cells and rows as they stand on the wire, with the checksums found beside their content, and the
scanners that read them. Each part is recognised by its tag alone, in a fixed order. Only a checksum
that is not the computed one is reported; `scan` is `read` without the reports.
-/

namespace TableWire

structure WireCell : Type where
  cell : Cell
  /-- The checksum found behind the cell. -/
  stored : Option UInt8
  /-- The checksum its content calls for. -/
  computed : UInt8
  deriving DecidableEq, Repr

structure WireRow : Type where
  primaryKey : List WireCell := []
  attributes : List WireCell := []
  deleted : Bool := false
  /-- The checksum found behind the row. -/
  stored : Option UInt8 := none
  deriving DecidableEq, Repr

/-- When `check` is set, a checksum that was found has to be the computed one. One that is not is
reported and refused. -/
def verifyStored (check : Bool) (scope : Scope) (event : UInt8 → UInt8 → Nat → Event)
    (computed : UInt8) : Option (Nat × UInt8) → Logged Unit
  | none => return
  | some (offset, stored) =>
    if check ∧ stored ≠ computed then do
      .report (event stored computed offset)
      Scan.fail (.checksumMismatch scope stored computed offset)
    else return

/-- The comparison without the report. -/
def matchStored (check : Bool) (scope : Scope) (computed : UInt8) :
    Option (Nat × UInt8) → Scan Unit
  | none => return
  | some (offset, stored) =>
    if check ∧ stored ≠ computed then
      Scan.fail (.checksumMismatch scope stored computed offset)
    else return

@[simp] theorem silent_verifyStored (check : Bool) (scope : Scope)
    (event : UInt8 → UInt8 → Nat → Event) (computed : UInt8) (stored : Option (Nat × UInt8)) :
    (verifyStored check scope event computed stored).silent =
      matchStored check scope computed stored := by
  unfold verifyStored matchStored
  split
  · rfl
  · split <;> rfl

theorem forward_matchStored (check : Bool) (scope : Scope) (computed : UInt8)
    (stored : Option (Nat × UInt8)) : (matchStored check scope computed stored).Forward := by
  unfold matchStored
  split
  · exact .pure _
  · split
    · exact Scan.forward_fail _
    · exact .pure _

theorem eq_of_matchStored {check : Bool} {scope : Scope} {computed : UInt8}
    {stored : Option (Nat × UInt8)} {c d : Cursor}
    (run : matchStored check scope computed stored c = .ok () d) : d = c := by
  unfold matchStored at run
  split at run
  · cases run
    rfl
  · split at run
    · cases run
    · cases run
      rfl

namespace WireCell

/-- What the cell contributes to the checksum of its row. -/
def effective (c : WireCell) : UInt8 := c.stored.getD c.computed

def scanName : Scan String := do
  let offset ← Scan.position
  if ← Scan.accept Tag.name.code then Value.scanText
  else Scan.fail (.missingName offset)

/-- A value that fills the field of the announced size, with the bytes it was read from. -/
def scanValue : Scan (Bytes × Value) := do
  let field ← Scan.window (← Scan.word32).toNat
  let (value, left) ← Scan.within field Value.scan
  match left.rest with
  | [] => return (field.rest, value)
  | b :: _ => Scan.fail (.unexpectedTag b left.offset)

def scanOperation : Scan Operation := do
  let (offset, code) ← Scan.located Scan.byte
  match Operation.ofCode? code with
  | some o => return o
  | none => Scan.fail (.unknownOperation code offset)

def scanTimestamp : Scan Int64 := return (← Scan.word64).toInt64

/-- The parts of a cell, with the place of its checksum. -/
def scanParts : Scan (WireCell × Option (Nat × UInt8)) := do
  let name ← scanName
  let value ← Scan.optional Tag.value.code scanValue
  let operation ← Scan.optional Tag.operation.code scanOperation
  let timestamp ← Scan.optional Tag.timestamp.code scanTimestamp
  let stored ← Scan.optional Tag.cellChecksum.code (Scan.located Scan.byte)
  return ({
    cell := { name, value := value.map (·.2), operation, timestamp }
    stored := stored.map (·.2)
    computed := Cell.checksumOf name (value.map (·.1)) operation timestamp }, stored)

/-- A cell behind its tag. -/
def read (check : Bool) : Logged WireCell := do
  let (cell, stored) ← scanParts
  verifyStored check .cell (.cellMismatch cell.cell.name) cell.computed stored
  return cell

def scan (check : Bool) : Scan WireCell := (read check).silent

theorem scan_eq (check : Bool) : scan check = (do
    let (cell, stored) ← scanParts
    matchStored check .cell cell.computed stored
    return cell) := by
  simp [scan, read]

theorem forward_scanName : scanName.Forward := by
  refine Scan.forward_position.bind fun offset => ?_
  refine (Scan.forward_accept _).bind fun found => ?_
  cases found
  · exact Scan.forward_fail _
  · exact Value.forward_scanText

theorem forward_scanValue : scanValue.Forward := by
  refine Scan.forward_word32.bind fun n => ?_
  refine (Scan.forward_window _).bind fun field => ?_
  refine (Scan.forward_within _ _).bind ?_
  rintro ⟨value, left⟩
  dsimp only
  split
  · exact .pure _
  · exact Scan.forward_fail _

theorem forward_scanOperation : scanOperation.Forward := by
  refine Scan.forward_byte.located.bind ?_
  rintro ⟨offset, code⟩
  dsimp only
  split
  · exact .pure _
  · exact Scan.forward_fail _

theorem forward_scanTimestamp : scanTimestamp.Forward :=
  Scan.forward_word64.bind fun _ => .pure _

theorem forward_scanParts : scanParts.Forward := by
  refine forward_scanName.bind fun name => ?_
  refine (forward_scanValue.optional _).bind fun value => ?_
  refine (forward_scanOperation.optional _).bind fun operation => ?_
  refine (forward_scanTimestamp.optional _).bind fun timestamp => ?_
  exact (Scan.forward_byte.located.optional _).bind fun stored => .pure _

theorem forward_scan (check : Bool) : (scan check).Forward := by
  rw [scan_eq]
  refine forward_scanParts.bind ?_
  rintro ⟨cell, stored⟩
  exact (forward_matchStored _ _ _ _).bind fun _ => .pure _

theorem forward_read (check : Bool) : (read check).silent.Forward := forward_scan check

end WireCell

namespace WireRow

def cells (r : WireRow) : List WireCell := r.primaryKey ++ r.attributes

/-- The row without what only the wire knows. -/
def row (r : WireRow) : Row where
  primaryKey := r.primaryKey.map (·.cell)
  attributes := r.attributes.map (·.cell)
  deleted := r.deleted

/-- The checksum the content of the row calls for. -/
def computed (r : WireRow) : UInt8 :=
  Crc8.fold 0 (r.cells.map (·.effective) ++ [r.deleted.toUInt8])

def readGroup (check : Bool) (g : Group) : Logged (List WireCell) := do
  if ← Scan.accept g.tag.code then
    .items Tag.cell.code (WireCell.read check) (WireCell.forward_read check)
  else return []

/-- The parts of a row, all of them optional, with the place of its checksum. -/
def readParts (check : Bool) : Logged (WireRow × Option (Nat × UInt8)) := do
  let primaryKey ← readGroup check .primaryKey
  let attributes ← readGroup check .attributes
  let deleted ← Scan.accept Tag.deleted.code
  let stored ← Scan.optional Tag.rowChecksum.code (Scan.located Scan.byte)
  return ({ primaryKey, attributes, deleted, stored := stored.map (·.2) }, stored)

/-- Stops when nothing has been consumed since `start`. -/
def demandProgress (start : Nat) : Scan Unit := do
  if (← Scan.position) = start then Scan.fail (.unexpectedTag (← Scan.peek) start)

/-- A row with at least one of its parts. -/
def read (check : Bool) : Logged WireRow := do
  let start ← Scan.position
  let (row, stored) ← readParts check
  demandProgress start
  verifyStored check .row .rowMismatch row.computed stored
  return row

def scanGroup (check : Bool) (g : Group) : Scan (List WireCell) := (readGroup check g).silent

def scanParts (check : Bool) : Scan (WireRow × Option (Nat × UInt8)) := (readParts check).silent

def scan (check : Bool) : Scan WireRow := (read check).silent

theorem scanGroup_eq (check : Bool) (g : Group) : scanGroup check g = (do
    if ← Scan.accept g.tag.code then
      Scan.items Tag.cell.code (WireCell.read check) (WireCell.forward_read check)
    else return []) := by
  simp only [scanGroup, readGroup, Logged.silent_bind, Logged.silent_lift, Logged.silent_ite]
  rfl

theorem scanParts_eq (check : Bool) : scanParts check = (do
    let primaryKey ← scanGroup check .primaryKey
    let attributes ← scanGroup check .attributes
    let deleted ← Scan.accept Tag.deleted.code
    let stored ← Scan.optional Tag.rowChecksum.code (Scan.located Scan.byte)
    return ({ primaryKey, attributes, deleted, stored := stored.map (·.2) }, stored)) := by
  simp [scanParts, readParts, scanGroup]

theorem scan_eq (check : Bool) : scan check = (do
    let start ← Scan.position
    let (row, stored) ← scanParts check
    demandProgress start
    matchStored check .row row.computed stored
    return row) := by
  simp [scan, read, scanParts]

theorem forward_scanGroup (check : Bool) (g : Group) : (scanGroup check g).Forward := by
  rw [scanGroup_eq]
  refine (Scan.forward_accept _).bind fun found => ?_
  cases found
  · exact .pure _
  · exact Scan.forward_items _ _

theorem forward_scanParts (check : Bool) : (scanParts check).Forward := by
  rw [scanParts_eq]
  refine (forward_scanGroup _ _).bind fun primaryKey => ?_
  refine (forward_scanGroup _ _).bind fun attributes => ?_
  refine (Scan.forward_accept _).bind fun deleted => ?_
  exact (Scan.forward_byte.located.optional _).bind fun stored => .pure _

theorem forward_demandProgress (start : Nat) : (demandProgress start).Forward := by
  refine Scan.forward_position.bind fun here => ?_
  split
  · exact Scan.forward_peek.bind fun _ => Scan.forward_fail _
  · exact .pure _

theorem forward_scan (check : Bool) : (scan check).Forward := by
  rw [scan_eq]
  refine Scan.forward_position.bind fun start => ?_
  refine (forward_scanParts check).bind ?_
  rintro ⟨row, stored⟩
  refine (forward_demandProgress start).bind fun _ => ?_
  exact (forward_matchStored _ _ _ _).bind fun _ => .pure _

theorem offset_ne_of_demandProgress {start : Nat} {c d : Cursor}
    (run : demandProgress start c = .ok () d) : d = c ∧ c.offset ≠ start := by
  obtain ⟨here, c', at_c, rest⟩ := Scan.bind_eq_ok.mp run
  cases at_c
  by_cases same : c.offset = start
  · rw [if_pos same] at rest
    obtain ⟨b, c'', _, failed⟩ := Scan.bind_eq_ok.mp rest
    cases failed
  · rw [if_neg same] at rest
    cases rest
    exact ⟨rfl, same⟩

/-- A row that has been read has left its first byte behind. -/
theorem remaining_lt_of_scan {check : Bool} {c d : Cursor} {r : WireRow}
    (run : scan check c = .ok r d) : d.remaining < c.remaining := by
  refine ((forward_scan check).ok run).remaining_lt ?_
  rw [scan_eq] at run
  obtain ⟨start, c', at_c, run⟩ := Scan.bind_eq_ok.mp run
  cases at_c
  obtain ⟨⟨row, stored⟩, c₁, _, run⟩ := Scan.bind_eq_ok.mp run
  obtain ⟨_, c₂, progress, run⟩ := Scan.bind_eq_ok.mp run
  obtain ⟨_, c₃, verified, run⟩ := Scan.bind_eq_ok.mp run
  cases run
  rw [eq_of_matchStored verified, (offset_ne_of_demandProgress progress).1]
  exact (offset_ne_of_demandProgress progress).2

end WireRow

end TableWire
