/-!
The bytes that announce the parts of a row buffer.
-/

namespace TableWire

inductive Tag : Type
  | primaryKey
  | attributes
  | cell
  | name
  | value
  | operation
  | timestamp
  | deleted
  | rowChecksum
  | cellChecksum
  deriving DecidableEq, Repr

def Tag.code : Tag → UInt8
  | .primaryKey => 0x01
  | .attributes => 0x02
  | .cell => 0x03
  | .name => 0x04
  | .value => 0x05
  | .operation => 0x06
  | .timestamp => 0x07
  | .deleted => 0x08
  | .rowChecksum => 0x09
  | .cellChecksum => 0x0a

theorem Tag.code_injective {s t : Tag} (h : s.code = t.code) : s = t := by
  cases s <;> cases t <;> first | rfl | cases h

end TableWire
