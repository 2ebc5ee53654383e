import TableWire.Bytes.Basic
/-!
Text as UTF-8 bytes. Reading accepts exactly what writing produces: `Utf8.decode?_eq_some_iff`.
-/

namespace TableWire.Utf8

def encode (s : String) : Bytes := s.toUTF8.data.toList

def decode? (bs : Bytes) : Option String := String.fromUTF8? ⟨bs.toArray⟩

theorem decode?_eq_some_iff {bs : Bytes} {s : String} : decode? bs = some s ↔ encode s = bs := by
  constructor
  · intro h
    unfold decode? String.fromUTF8? at h
    split at h
    · cases h
      rfl
    · cases h
  · intro h
    subst h
    have valid : (⟨(encode s).toArray⟩ : ByteArray).IsValidUTF8 := by
      simpa [encode] using s.isValidUTF8
    unfold decode? String.fromUTF8?
    rw [dif_pos valid]
    simp [encode, String.fromUTF8]

@[simp] theorem decode?_encode (s : String) : decode? (encode s) = some s :=
  decode?_eq_some_iff.mpr rfl

theorem encode_injective {s t : String} (h : encode s = encode t) : s = t :=
  Option.some.inj (by rw [← decode?_encode s, h, decode?_encode])

/-- The byte length of a text. -/
def length (s : String) : Nat := (encode s).length

theorem length_eq (s : String) : length s = s.utf8ByteSize := rfl

end TableWire.Utf8
