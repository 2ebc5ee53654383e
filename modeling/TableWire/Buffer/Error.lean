import TableWire.Bytes.Hex
/-!
Why a row buffer cannot be read or written. Offsets count bytes of the outermost buffer.
-/

namespace TableWire

/-- What a stored checksum covers. -/
inductive Scope : Type
  | cell
  | row
  deriving DecidableEq, Repr

def Scope.text : Scope → String
  | .cell => "cell"
  | .row => "row"

/-- The fields written behind a four-byte length. -/
inductive SizedField : Type
  | stringValue
  | blobValue
  | cellName
  | cellValue
  deriving DecidableEq, Repr

def SizedField.text : SizedField → String
  | .stringValue => "string value"
  | .blobValue => "blob value"
  | .cellName => "cell name"
  | .cellValue => "cell value"

inductive BufferError : Type
  | unknownValueType (tag : UInt8) (offset : Nat)
  | missingName (offset : Nat)
  | truncated (offset needed remaining : Nat)
  | noHeader (found : UInt32)
  | emptyRow
  | unexpectedTag (tag : UInt8) (offset : Nat)
  | unknownOperation (op : UInt8) (offset : Nat)
  | checksumMismatch (scope : Scope) (stored computed : UInt8) (offset : Nat)
  | invalidUtf8 (offset : Nat)
  | lengthOverflow (field : SizedField) (length : Nat)
  | unsupported (input : String)
  | tooManyRows (limit : Nat)
  deriving DecidableEq, Repr

def BufferError.message : BufferError → String
  | .unknownValueType tag offset => s!"unknown value type {Hex.ofByte tag} at offset {offset}"
  | .missingName offset => s!"cell at offset {offset} has no name"
  | .truncated offset needed remaining =>
    s!"buffer truncated at offset {offset}: needed {needed} bytes, {remaining} remaining"
  | .noHeader found => s!"no plainbuffer header: found {Hex.ofWord found}"
  | .emptyRow => "row must have primary key or attribute columns"
  | .unexpectedTag tag offset => s!"unexpected tag {Hex.ofByte tag} at offset {offset}"
  | .unknownOperation op offset => s!"unknown cell op {Hex.ofByte op} at offset {offset}"
  | .checksumMismatch scope stored computed offset =>
    s!"{scope.text} checksum mismatch at offset {offset}: " ++
      s!"stored {Hex.ofByte stored}, computed {Hex.ofByte computed}"
  | .invalidUtf8 offset => s!"invalid utf-8 at offset {offset}"
  | .lengthOverflow field length => s!"{field.text} length {length} exceeds i32::MAX"
  | .unsupported input => s!"unsupported input: {input}"
  | .tooManyRows limit => s!"plainbuffer holds more than {limit} rows"

end TableWire
