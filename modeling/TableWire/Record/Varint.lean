import TableWire.Bytes.Basic
/-!
Variable-length numbers: seven bits a byte, the lowest first, the top bit set on all bytes but the
last. A number of 64 bits takes at most ten bytes.
-/

namespace TableWire.Varint

def encode (n : Nat) : Bytes :=
  if n < 128 then [UInt8.ofNat n] else UInt8.ofNat (n % 128 + 128) :: encode (n / 128)

/-- Reads a number of at most `room` bytes. Longer forms than needed are read as well. -/
def decodeIn : Nat → Bytes → Option (Nat × Bytes)
  | 0, _ => none
  | _ + 1, [] => none
  | room + 1, b :: bs =>
    if b < 128 then some (b.toNat, bs)
    else (decodeIn room bs).map fun (n, rest) => (b.toNat - 128 + 128 * n, rest)

/-- Refuses numbers of more than 64 bits. -/
def decode (bs : Bytes) : Option (Nat × Bytes) :=
  (decodeIn 10 bs).filter fun (n, _) => n < UInt64.size

theorem decodeIn_length {room : Nat} {bs rest : Bytes} {n : Nat}
    (h : decodeIn room bs = some (n, rest)) : rest.length < bs.length := by
  fun_induction decodeIn room bs generalizing n rest with
  | case1 => cases h
  | case2 => cases h
  | case3 =>
    cases h
    exact Nat.lt_succ_self _
  | case4 room b bs _ ih =>
    obtain ⟨⟨m, rest'⟩, found, same⟩ := Option.map_eq_some_iff.mp h
    cases same
    exact Nat.lt_succ_of_lt (ih found)

theorem decode_length {bs rest : Bytes} {n : Nat} (h : decode bs = some (n, rest)) :
    rest.length < bs.length :=
  decodeIn_length (Option.filter_eq_some_iff.mp h).1

end TableWire.Varint
