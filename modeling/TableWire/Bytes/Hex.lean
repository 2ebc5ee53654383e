import TableWire.Bytes.Basic
/-!
Fixed-width lower-case hexadecimal.
-/

namespace TableWire.Hex

def digit (n : Nat) : Char := "0123456789abcdef".toList.getD n '0'

/-- The low `width` hexadecimal digits of `n`, the highest first. -/
def digits : Nat → Nat → List Char
  | 0, _ => []
  | width + 1, n => digits width (n / 16) ++ [digit (n % 16)]

def ofByte (b : UInt8) : String := "0x" ++ String.ofList (digits 2 b.toNat)

def ofWord (w : UInt32) : String := "0x" ++ String.ofList (digits 8 w.toNat)

end TableWire.Hex
