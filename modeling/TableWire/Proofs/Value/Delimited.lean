import TableWire.Proofs.Value.Form
/-!
Values among other bytes. The code of a value tells where its payload ends, so values are read back
wherever they stand, and nothing but the payload counts. What has been read is what a writer writes,
unless it is too long for writers, or is a boolean in one of the bytes that writers do not choose.
-/

namespace TableWire.Value

variable {code : UInt8} {bytes : Bytes} {offset next : Nat} {v : Value}

theorem Form.length_payload (f : Form) : f.payload.length = f.value.payloadSize := by
  cases f with
  | str s _ => simp [payload, value, payloadSize, sizedBytes, Utf8.length]
  | blob bs _ => simp [payload, value, payloadSize, sizedBytes]
  | int n => exact length_word64 _
  | double d => exact length_word64 _
  | _ => rfl

/-- Reading succeeds where the payload of some form follows, which ends where the reading does. -/
theorem decode_eq_ok : decode code bytes offset = .ok (v, next) ↔
    ∃ f : Form, f.kind.code = code ∧ f.value = v ∧ f.payload <+: bytes.drop offset ∧
      next = min offset bytes.length + f.payload.length := by
  have run : decode code bytes offset = .ok (v, next) ↔
      ∃ d, scanBehind code (offset - 1) (.seek bytes offset) = .ok v d ∧ d.offset = next := by
    rw [decode]
    cases scanBehind code (offset - 1) (.seek bytes offset) <;> simp
  simp only [run, scanBehind_eq_ok]
  constructor
  · rintro ⟨d, ⟨f, announced, span, rfl⟩, rfl⟩
    exact ⟨f, announced, rfl, ⟨d.rest, span.rest.symm⟩, span.offset⟩
  · rintro ⟨f, announced, rfl, ⟨rest, follows⟩, rfl⟩
    exact ⟨⟨_, rest⟩, ⟨f, announced, ⟨follows.symm, rfl⟩, rfl⟩, rfl⟩

theorem length_encode {e : Bytes} (written : v.encode = .ok e) : e.length = v.encodedSize := by
  obtain ⟨f, _, rfl, rfl⟩ := encode_eq_ok.mp written
  rw [Form.bytes, List.length_cons, f.length_payload, encodedSize, Nat.add_comm]

/-- A value is read back between any other bytes. -/
theorem decode_encode {payload : Bytes} (written : v.encode = .ok (code :: payload)) (p s : Bytes) :
    decode code (p ++ code :: payload ++ s) (p.length + 1) =
      .ok (v, p.length + (code :: payload).length) := by
  obtain ⟨f, _, rfl, same⟩ := encode_eq_ok.mp written
  obtain ⟨rfl, rfl⟩ := List.cons.inj same
  refine decode_eq_ok.mpr ⟨f, rfl, rfl, ⟨s, ?_⟩, ?_⟩
  · simp [List.drop_append]
  · rw [List.length_append, List.length_append, List.length_cons]
    omega

/-- Writers write zero and one for booleans. -/
theorem eq_toUInt8_iff {b : UInt8} : b = (b ≠ 0 : Bool).toUInt8 ↔ ¬ 1 < b := by
  by_cases zero : b = 0
  · subst zero
    decide
  · have one : (b ≠ 0 : Bool) = true := decide_eq_true zero
    have positive : b.toNat ≠ 0 := fun h => zero (UInt8.toNat_inj.mp h)
    rw [one, ← UInt8.toNat_inj, UInt8.lt_iff_toNat_lt]
    change b.toNat = 1 ↔ ¬ 1 < b.toNat
    omega

theorem Form.canonical_iff {f : Form} : f.Canonical ↔
    f.value.Fits ∧ ¬ ∃ x k, f.value = .bool x ∧ f.payload = [k] ∧ 1 < k := by
  cases f with
  | bool b =>
    have loose : (∃ x k, (bool b).value = .bool x ∧ (bool b).payload = [k] ∧ 1 < k) ↔ 1 < b := by
      constructor
      · rintro ⟨_, k, _, same, loose⟩
        cases same
        exact loose
      · exact fun loose => ⟨_, b, rfl, rfl, loose⟩
    rw [loose]
    exact eq_toUInt8_iff.trans (iff_of_eq (true_and _)).symm
  | _ => simp [Canonical, value, Fits]

/-- The bytes between two places, from a place at the end of the bytes if it is beyond. -/
theorem extract_min (bytes : Bytes) (offset n : Nat) :
    bytes.extract (min offset bytes.length) (min offset bytes.length + n) =
      (bytes.drop offset).take n := by
  rw [List.extract_eq_take_drop, Nat.add_sub_cancel_left]
  rcases Nat.le_total offset bytes.length with inside | beyond
  · rw [Nat.min_eq_left inside]
  · rw [Nat.min_eq_right beyond, List.drop_length, List.drop_eq_nil_of_le beyond]

theorem take_drop_congr {bytes' : Bytes} {n : Nat} (length : bytes'.length = bytes.length)
    (same : ∀ i, min offset bytes.length ≤ i → i < min offset bytes.length + n →
      bytes'[i]? = bytes[i]?) :
    (bytes'.drop offset).take n = (bytes.drop offset).take n := by
  refine List.ext_getElem? fun i => ?_
  by_cases within : i < n
  · rw [List.getElem?_take_of_lt within, List.getElem?_take_of_lt within, List.getElem?_drop,
      List.getElem?_drop]
    by_cases inside : offset + i < bytes.length
    · exact same _ (by omega) (by omega)
    · rw [List.getElem?_eq_none (by omega), List.getElem?_eq_none (by omega)]
  · rw [List.getElem?_take_eq_none (by omega), List.getElem?_take_eq_none (by omega)]

/-- A value that has been written is as long as foretold and is read back between any other bytes.
What is read anywhere is told by the bytes between the two places alone, and they are what a writer
writes, but for values that are too long for writers and for booleans other than zero and one. -/
theorem encode_delimits :
    (∀ v e, encode v = .ok e → e.length = v.encodedSize ∧
      ∃ code, e.head? = some code ∧ ∀ p s : Bytes,
        decode code (p ++ e ++ s) (p.length + 1) = .ok (v, p.length + e.length)) ∧
    ∀ code bytes offset v next, decode code bytes offset = .ok (v, next) →
      let o := min offset bytes.length
      o ≤ next ∧ next ≤ bytes.length ∧ next - o = v.encodedSize - 1 ∧
      (∀ bytes' : Bytes, bytes'.length = bytes.length →
        (∀ i, o ≤ i → i < next → bytes'[i]? = bytes[i]?) →
        decode code bytes' offset = .ok (v, next)) ∧
      (v.encode = .ok (code :: bytes.extract o next) ↔
        v.Fits ∧ ¬ ∃ x k, v = .bool x ∧ bytes.extract o next = [k] ∧ 1 < k) := by
  refine ⟨fun v e written => ⟨length_encode written, ?_⟩, ?_⟩
  · obtain ⟨f, _, _, rfl⟩ := encode_eq_ok.mp written
    exact ⟨f.kind.code, rfl, decode_encode written⟩
  · intro code bytes offset v next read o
    obtain ⟨f, rfl, rfl, follows, rfl⟩ := decode_eq_ok.mp read
    have payload := (List.prefix_iff_eq_take.mp follows).symm
    have slice : bytes.extract o (o + f.payload.length) = f.payload :=
      (extract_min bytes offset _).trans payload
    refine ⟨Nat.le_add_right _ _, ?_, ?_, fun bytes' length same => ?_, ?_⟩
    · have := follows.length_le
      rw [List.length_drop] at this
      omega
    · rw [Nat.add_sub_cancel_left, f.length_payload, encodedSize, Nat.add_sub_cancel_left]
    · refine decode_eq_ok.mpr ⟨f, rfl, rfl, List.prefix_iff_eq_take.mpr ?_, by rw [length]⟩
      rw [take_drop_congr length same, payload]
    · rw [slice, encode_eq_ok, ← Form.canonical_iff]
      constructor
      · rintro ⟨g, canonical, value, bytes⟩
        exact Form.ext_of_value_of_bytes value bytes ▸ canonical
      · exact fun canonical => ⟨f, canonical, rfl, rfl⟩

theorem encode_delimits_between_bytes :
    encode (.str "é") = .ok [3, 2, 0, 0, 0, 0xc3, 0xa9] ∧
    decode 3 [0xff, 3, 2, 0, 0, 0, 0xc3, 0xa9, 0xff] 2 = .ok (.str "é", 8) ∧
    decode 3 [0, 0, 2, 0, 0, 0, 0xc3, 0xa9, 0] 2 = .ok (.str "é", 8) ∧
    decode 2 [0xff, 7] 1 = .ok (.bool true, 2) ∧ encode (.bool true) ≠ .ok [2, 7] ∧
    decode 6 [0xff] 9 = .ok (.null, 1) ∧ encode .null = .ok [6] := by
  obtain ⟨delimits, reads⟩ := encode_delimits
  have written : encode (.str "é") = .ok [3, 2, 0, 0, 0, 0xc3, 0xa9] := by decide +kernel
  obtain ⟨_, code, first, between⟩ := delimits _ _ written
  obtain rfl := Option.some.inj first
  have text := between [0xff] [0xff]
  obtain ⟨_, _, _, alike, _⟩ := reads _ _ _ _ _ text
  have loose : decode 2 [0xff, 7] 1 = .ok (.bool true, 2) := by decide +kernel
  have beyond : decode 6 [0xff] 9 = .ok (.null, 1) := by decide +kernel
  obtain ⟨_, _, _, _, rewritten⟩ := reads _ _ _ _ _ loose
  obtain ⟨_, _, _, _, same⟩ := reads _ _ _ _ _ beyond
  refine ⟨written, text, alike _ rfl ?_, loose, ?_, beyond, same.mpr ?_⟩
  · intro i (low : 2 ≤ i) (high : i < 8)
    interval_cases i <;> rfl
  · exact fun same => (rewritten.mp same).2 ⟨true, 7, rfl, rfl, by decide⟩
  · exact ⟨trivial, by simp⟩

end TableWire.Value
