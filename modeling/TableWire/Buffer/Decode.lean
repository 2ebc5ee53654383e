import TableWire.Buffer.Encode
import TableWire.Row.Flat
/-!
Reading buffers of rows. Empty input holds no rows; any other input is a header and at least one
row.
-/

namespace TableWire.Buffer

structure DecodeOptions : Type where
  /-- Compare stored checksums with computed ones. -/
  verify : Bool := true
  /-- Refuse buffers with more rows. -/
  maxRows : Option Nat := none
  deriving DecidableEq, Repr

/-- The rows up to the end of the input, after `read` rows have been read. -/
def readRowsFrom (o : DecodeOptions) (read : Nat) (c : Cursor) :
    EStateM.Result BufferError Cursor (List WireRow) × List Event :=
  if o.maxRows = some read then (Scan.fail (.tooManyRows read) c, [])
  else
    match next : WireRow.read o.verify c with
    | (.error e d, es) => (.error e d, es)
    | (.ok row d, es) =>
      if d.isEmpty then (.ok [row] d, es)
      else
        have : d.remaining < c.remaining :=
          WireRow.remaining_lt_of_scan (congrArg Prod.fst next)
        match readRowsFrom o (read + 1) d with
        | (.error e d', es') => (.error e d', es ++ es')
        | (.ok rows d', es') => (.ok (row :: rows) d', es ++ es')
termination_by c.remaining

def readRows (o : DecodeOptions) : Logged (List WireRow) := readRowsFrom o 0

def scanHeader : Scan Unit := do
  let found ← Scan.word32
  if found ≠ header then Scan.fail (.noHeader found)

def read (o : DecodeOptions) : Logged (List WireRow) := do
  scanHeader
  readRows o

/-- The rows of a buffer with all that the wire tells about them. -/
def decodeRows (o : DecodeOptions) (bytes : Bytes) : Traced BufferError (List WireRow) :=
  if bytes.isEmpty then return []
  else do
    let rows ← (read o).run (.start bytes)
    .report (.decoded rows.length bytes.length)
    return rows

def decodeWith (o : DecodeOptions) (bytes : Bytes) : Traced BufferError (List FlatRow) :=
  (decodeRows o bytes).map (·.map WireRow.flatten)

def decode (bytes : Bytes) : Traced BufferError (List FlatRow) := decodeWith {} bytes

/-- The only row of a buffer that holds at most one. -/
def decodeFirst (o : DecodeOptions) (bytes : Bytes) : Traced BufferError (Option FlatRow) :=
  (decodeRows { o with maxRows := some 1 } bytes).map (·.head?.map WireRow.flatten)

/-- The rows without what is reported about them. -/
def scanRowsFrom (o : DecodeOptions) (read : Nat) : Scan (List WireRow) :=
  Logged.silent (readRowsFrom o read)

def scanRows (o : DecodeOptions) : Scan (List WireRow) := scanRowsFrom o 0

def scan (o : DecodeOptions) : Scan (List WireRow) := (read o).silent

theorem scan_eq (o : DecodeOptions) : scan o = (do
    scanHeader
    scanRows o) := by
  simp only [scan, read, Logged.silent_bind, Logged.silent_lift]
  rfl

theorem decodeRows_outcome (o : DecodeOptions) (bytes : Bytes) : (decodeRows o bytes).outcome =
    if bytes.isEmpty then .ok []
    else
      match scan o (.start bytes) with
      | .ok rows _ => .ok rows
      | .error e _ => .error e := by
  unfold decodeRows
  split
  · rfl
  · simp only [Traced.outcome_bind, scan, Logged.silent, Logged.run]
    rcases read o (.start bytes) with ⟨r, es⟩
    cases r <;> rfl

end TableWire.Buffer
