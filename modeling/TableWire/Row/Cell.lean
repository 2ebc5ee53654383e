import TableWire.Crc8
import TableWire.Row.Tag
import TableWire.Value.Wire
/-!
Cells: a named column with an optional value, operation and timestamp, and how they are written.
-/

namespace TableWire

/-- What a cell without a value asks for. -/
inductive Operation : Type
  | deleteAll
  | deleteOne
  deriving DecidableEq, Repr

namespace Operation

def code : Operation → UInt8
  | .deleteAll => 0x01
  | .deleteOne => 0x03

def ofCode? : UInt8 → Option Operation
  | 0x01 => some .deleteAll
  | 0x03 => some .deleteOne
  | _ => none

@[simp] theorem ofCode?_code (o : Operation) : ofCode? o.code = some o := by
  cases o <;> rfl

theorem ofCode?_eq_some_iff {b : UInt8} {o : Operation} : ofCode? b = some o ↔ b = o.code := by
  constructor
  · intro h
    unfold ofCode? at h
    split at h <;> cases h <;> rfl
  · rintro rfl
    exact ofCode?_code o

end Operation

structure Cell : Type where
  name : String
  value : Option Value := none
  operation : Option Operation := none
  timestamp : Option Int64 := none
  deriving DecidableEq, Repr

namespace Cell

def put (name : String) (value : Value) : Cell := { name, value := some value }

/-- Drops the version written at `timestamp`. -/
def deleteOne (name : String) (timestamp : Int64) : Cell :=
  { name, operation := some .deleteOne, timestamp := some timestamp }

def deleteAll (name : String) : Cell := { name, operation := some .deleteAll }

def infMin (name : String) : Cell := put name .infMin

def infMax (name : String) : Cell := put name .infMax

/-- A key whose value is assigned when the row is stored. -/
def autoIncrement (name : String) : Cell := put name .autoIncrement

def withTimestamp (c : Cell) (timestamp : Int64) : Cell := { c with timestamp := some timestamp }

/-- The checksum covers the name, the written value, the timestamp and last the operation, in this
order, which is not the order in which they are written. -/
def checksumOf (name : String) (value : Option Bytes) (operation : Option Operation)
    (timestamp : Option Int64) : UInt8 :=
  let covered := Utf8.encode name ++ value.getD [] ++
    (timestamp.map fun t => word64 t.toUInt64).getD [] ++ (operation.map (·.code)).toList
  Crc8.fold 0 covered

def checksum (c : Cell) : Except BufferError UInt8 :=
  return checksumOf c.name (← c.value.mapM Value.encode) c.operation c.timestamp

/-- Writes the value behind its tag and size, and hands on what was written for the value. -/
def emitValue (v : Value) : Emit Bytes := do
  let bytes ← MonadExcept.ofExcept v.encode
  .byte Tag.value.code
  .sized .cellValue bytes
  return bytes

/-- Appends the cell and returns its checksum. -/
def emit (c : Cell) : Emit UInt8 := do
  .bytes [Tag.cell.code, Tag.name.code]
  .sized .cellName (Utf8.encode c.name)
  let value ← c.value.mapM emitValue
  if let some o := c.operation then .bytes [Tag.operation.code, o.code]
  if let some t := c.timestamp then .bytes (Tag.timestamp.code :: word64 t.toUInt64)
  let checksum := checksumOf c.name value c.operation c.timestamp
  .bytes [Tag.cellChecksum.code, checksum]
  return checksum

def encode (c : Cell) : Except BufferError Bytes := c.emit.output

end Cell

end TableWire
