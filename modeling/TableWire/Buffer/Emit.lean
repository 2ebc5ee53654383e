import TableWire.Buffer.Error
/-!
Writers, which append to a buffer. What a failed writer had appended stays in the buffer.
-/

namespace TableWire

abbrev Emit (α : Type) : Type := EStateM BufferError (Array UInt8) α

namespace Emit

variable {α : Type}

/-- The greatest length that fits a signed four-byte word. -/
def maxLength : Nat := 0x7fffffff

def bytes (bs : Bytes) : Emit Unit := fun out => .ok () (out ++ bs)

def byte (b : UInt8) : Emit Unit := bytes [b]

/-- A four-byte length and the bytes themselves. -/
def sized (field : SizedField) (bs : Bytes) : Emit Unit :=
  if bs.length ≤ maxLength then bytes (word32 bs.length ++ bs)
  else throw (.lengthOverflow field bs.length)

/-- What a writer appends to an empty buffer. -/
def output (e : Emit α) : Except BufferError Bytes :=
  match e #[] with
  | .ok _ out => .ok out.toList
  | .error err _ => .error err

end Emit

end TableWire
