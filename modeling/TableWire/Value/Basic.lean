import TableWire.Bytes.Basic
import TableWire.Value.Double
/-!
The values of cells and filter operands, and the byte that announces each kind of value.
-/

namespace TableWire

inductive Value : Type
  | int : Int64 → Value
  | double : Double → Value
  | bool : Bool → Value
  | str : String → Value
  | null : Value
  | blob : Bytes → Value
  | infMin : Value
  | infMax : Value
  | autoIncrement : Value
  deriving DecidableEq, Repr

namespace Value

inductive Kind : Type
  | int
  | double
  | bool
  | str
  | null
  | blob
  | infMin
  | infMax
  | autoIncrement
  deriving DecidableEq, Repr

namespace Kind

def code : Kind → UInt8
  | .int => 0x00
  | .double => 0x01
  | .bool => 0x02
  | .str => 0x03
  | .null => 0x06
  | .blob => 0x07
  | .infMin => 0x09
  | .infMax => 0x0a
  | .autoIncrement => 0x0b

def ofCode? : UInt8 → Option Kind
  | 0x00 => some .int
  | 0x01 => some .double
  | 0x02 => some .bool
  | 0x03 => some .str
  | 0x06 => some .null
  | 0x07 => some .blob
  | 0x09 => some .infMin
  | 0x0a => some .infMax
  | 0x0b => some .autoIncrement
  | _ => none

@[simp] theorem ofCode?_code (k : Kind) : ofCode? k.code = some k := by
  cases k <;> rfl

theorem ofCode?_eq_some_iff {b : UInt8} {k : Kind} : ofCode? b = some k ↔ b = k.code := by
  constructor
  · intro h
    unfold ofCode? at h
    split at h <;> cases h <;> rfl
  · rintro rfl
    exact ofCode?_code k

end Kind

def kind : Value → Kind
  | .int _ => .int
  | .double _ => .double
  | .bool _ => .bool
  | .str _ => .str
  | .null => .null
  | .blob _ => .blob
  | .infMin => .infMin
  | .infMax => .infMax
  | .autoIncrement => .autoIncrement

/-- Equality in which doubles compare as numbers. -/
def equal : Value → Value → Bool
  | .double a, .double b => a.equal b
  | a, b => a = b

/-- A number becomes an integer when it is one and fits 64 bits, and stays a double otherwise. -/
def ofDouble (d : Double) : Value :=
  if d.isFinite && d.fract.equal .zero && Double.integerBound.neg.le d && d.lt .integerBound then
    .int d.toInt64
  else .double d

end Value

end TableWire
