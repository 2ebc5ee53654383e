/-!
Byte strings, and the little-endian words written in them. Every byte string is the word it is read
as: `LittleEndian.encode_decode`.
-/

namespace TableWire

abbrev Bytes : Type := List UInt8

namespace LittleEndian

/-- The low `width` bytes of `n`, the lowest first. -/
def encode : Nat → Nat → Bytes
  | 0, _ => []
  | width + 1, n => UInt8.ofNat n :: encode width (n / 256)

def decode : Bytes → Nat
  | [] => 0
  | b :: bs => b.toNat + 256 * decode bs

@[simp] theorem length_encode (width n : Nat) : (encode width n).length = width := by
  induction width generalizing n with
  | zero => rfl
  | succ width ih => simp [encode, ih]

theorem encode_decode (bs : Bytes) : encode bs.length (decode bs) = bs := by
  induction bs with
  | nil => rfl
  | cons b bs ih =>
    have h := b.toNat_lt
    have head : UInt8.ofNat (b.toNat + 256 * decode bs) = b := by
      apply UInt8.toNat_inj.mp
      rw [UInt8.toNat_ofNat']
      omega
    have tail : (b.toNat + 256 * decode bs) / 256 = decode bs := by omega
    simp only [decode, List.length_cons, encode, head, tail, ih]

end LittleEndian

/-- A four-byte word. -/
def word32 (n : Nat) : Bytes := LittleEndian.encode 4 n

/-- An eight-byte word. -/
def word64 (w : UInt64) : Bytes := LittleEndian.encode 8 w.toNat

@[simp] theorem length_word32 (n : Nat) : (word32 n).length = 4 := LittleEndian.length_encode 4 n

@[simp] theorem length_word64 (w : UInt64) : (word64 w).length = 8 :=
  LittleEndian.length_encode 8 w.toNat

end TableWire
