import TableWire.Row.Basic
/-!
Buffers of rows: a four-byte header and the rows behind it.
-/

namespace TableWire.Buffer

def header : UInt32 := 0x75

def headerSize : Nat := 4

def emitRows : List Row → Emit Unit
  | [] => return ()
  | r :: rs => do
    discard r.emit
    emitRows rs

def emit (rows : List Row) : Emit Unit := do
  .bytes (word32 header.toNat)
  emitRows rows

def encode (rows : List Row) : Except BufferError Bytes := (emit rows).output

/-- A row in a buffer of its own. -/
def emitRow (row : Row) : Emit Unit := do
  .bytes (word32 header.toNat)
  discard row.emit

def encodeRow (row : Row) : Except BufferError Bytes := (emitRow row).output

/-- The row of the given parts, in a buffer of its own. -/
def serialize (primaryKey attributes : List Cell) (deleted : Bool) : Except BufferError Bytes :=
  Emit.output do
    .bytes (word32 header.toNat)
    discard (Row.emit { primaryKey, attributes, deleted })

/-- Every row in a buffer of its own. -/
def encodeEach (rows : List Row) : Except BufferError (List Bytes) := rows.mapM encodeRow

end TableWire.Buffer
