import TableWire.Buffer.Emit
import TableWire.Bytes.Utf8
import TableWire.Scan.Basic
import TableWire.Value.Basic
/-!
Values on the wire: the code of the kind, then the payload.
-/

namespace TableWire.Value

def payloadSize : Value → Nat
  | .int _ | .double _ => 8
  | .bool _ => 1
  | .str s => 4 + Utf8.length s
  | .blob bs => 4 + bs.length
  | .null | .infMin | .infMax | .autoIncrement => 0

def encodedSize (v : Value) : Nat := 1 + v.payloadSize

def emitPayload : Value → Emit Unit
  | .int n => .bytes (word64 n.toUInt64)
  | .double d => .bytes (word64 d.bits)
  | .bool b => .byte b.toUInt8
  | .str s => .sized .stringValue (Utf8.encode s)
  | .blob bs => .sized .blobValue bs
  | .null | .infMin | .infMax | .autoIncrement => pure ()

def emit (v : Value) : Emit Unit := do
  .byte v.kind.code
  v.emitPayload

def encode (v : Value) : Except BufferError Bytes := v.emit.output

/-- A length-prefixed text; bytes that are not UTF-8 are blamed on the place of the length. -/
def scanText : Scan String := do
  let (offset, bytes) ← Scan.located Scan.sized
  match Utf8.decode? bytes with
  | some s => return s
  | none => Scan.fail (.invalidUtf8 offset)

def scanPayload : Kind → Scan Value
  | .int => return .int (← Scan.word64).toInt64
  | .double => return .double ⟨← Scan.word64⟩
  | .bool => return .bool ((← Scan.byte) ≠ 0)
  | .str => return .str (← scanText)
  | .blob => return .blob (← Scan.sized)
  | .null => return .null
  | .infMin => return .infMin
  | .infMax => return .infMax
  | .autoIncrement => return .autoIncrement

/-- The payload that the code at `offset` announces. -/
def scanBehind (code : UInt8) (offset : Nat) : Scan Value :=
  match Kind.ofCode? code with
  | some k => scanPayload k
  | none => Scan.fail (.unknownValueType code offset)

def scan : Scan Value := do
  let (offset, code) ← Scan.located Scan.byte
  scanBehind code offset

/-- Reads the payload at `offset` of a value whose code has been read before it, and tells where the
payload ends. -/
def decode (code : UInt8) (bytes : Bytes) (offset : Nat) : Except BufferError (Value × Nat) :=
  match scanBehind code (offset - 1) (.seek bytes offset) with
  | .ok v c => .ok (v, c.offset)
  | .error e _ => .error e

theorem forward_scanText : scanText.Forward := by
  refine Scan.forward_sized.located.bind ?_
  rintro ⟨offset, bytes⟩
  dsimp only
  split
  · exact .pure _
  · exact Scan.forward_fail _

theorem forward_scanPayload (k : Kind) : (scanPayload k).Forward := by
  cases k with
  | int => exact Scan.forward_word64.bind fun _ => .pure _
  | double => exact Scan.forward_word64.bind fun _ => .pure _
  | bool => exact Scan.forward_byte.bind fun _ => .pure _
  | str => exact forward_scanText.bind fun _ => .pure _
  | blob => exact Scan.forward_sized.bind fun _ => .pure _
  | null => exact .pure _
  | infMin => exact .pure _
  | infMax => exact .pure _
  | autoIncrement => exact .pure _

theorem forward_scanBehind (code : UInt8) (offset : Nat) : (scanBehind code offset).Forward := by
  unfold scanBehind
  cases Kind.ofCode? code with
  | none => exact Scan.forward_fail _
  | some k => exact forward_scanPayload k

theorem forward_scan : scan.Forward :=
  Scan.forward_byte.located.bind fun (offset, code) => forward_scanBehind code offset

end TableWire.Value
