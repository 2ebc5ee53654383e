import TableWire.Proofs.Emit
import TableWire.Record.Filter
/-!
Reading a record that has been written. Numbers and lengths are those of 64 bits; a record whose own
length is one has only such chunks in it.
-/

namespace TableWire

namespace Varint

theorem decodeIn_encode_of_lt {n : Nat} (small : n < 128) (room : Nat) (rest : Bytes) :
    decodeIn (room + 1) (encode n ++ rest) = some (n, rest) := by
  have byte : (UInt8.ofNat n).toNat = n := UInt8.toNat_ofNat_of_lt' (by simp [UInt8.size]; omega)
  have last : UInt8.ofNat n < 128 := by rwa [UInt8.lt_iff_toNat_lt, byte]
  rw [encode, if_pos small]
  simp [decodeIn, last, byte]

theorem decodeIn_encode {room n : Nat} (h : n < 128 ^ (room + 1)) (rest : Bytes) :
    decodeIn (room + 1) (encode n ++ rest) = some (n, rest) := by
  induction room generalizing n with
  | zero => exact decodeIn_encode_of_lt h 0 rest
  | succ room ih =>
    by_cases small : n < 128
    · exact decodeIn_encode_of_lt small _ rest
    · have byte : (UInt8.ofNat (n % 128 + 128)).toNat = n % 128 + 128 :=
        UInt8.toNat_ofNat_of_lt' (by simp [UInt8.size]; omega)
      have onward : ¬ UInt8.ofNat (n % 128 + 128) < 128 := by
        rw [UInt8.lt_iff_toNat_lt, byte]
        simp
      rw [encode, if_neg small, List.cons_append, decodeIn, if_neg onward, ih (by omega)]
      simp only [Option.map_some, byte]
      congr 2
      omega

theorem decode_encode {n : Nat} (h : n < UInt64.size) (rest : Bytes) :
    decode (encode n ++ rest) = some (n, rest) := by
  rw [decode, decodeIn_encode (Nat.lt_trans h (by decide))]
  simp [h]

theorem encode_ne_nil (n : Nat) : encode n ≠ [] := by
  rw [encode]
  split <;> simp

end Varint

namespace Payload

@[simp] theorem toInt32?_ofInt32 (n : Int32) : (ofInt32 n).toInt32? = some n := by
  rw [ofInt32, toInt32?, Option.some.injEq, ← Int32.toBitVec_inj]
  change (n.toBitVec.signExtend 64).setWidth 32 = n.toBitVec
  ext i hi
  rw [BitVec.getElem_setWidth, BitVec.getLsbD_signExtend]
  simp [hi, show i < 64 by omega]

@[simp] theorem toBool?_ofBool (b : Bool) : (ofBool b).toBool? = some b := by
  cases b <;> rfl

/-- The length of a chunk is a number that can be read. -/
def Fits : Payload → Prop
  | .number _ => True
  | .chunk bs => bs.length < UInt64.size

end Payload

namespace Field

theorem readKey_encode {number : Nat} (pos : 0 < number) (small : number < 2 ^ 29) (form : WireForm)
    (rest : Bytes) :
    readKey (Varint.encode (number * 8 + form.code) ++ rest) = some ((number, form), rest) := by
  have code : form.code < 8 := by cases form <;> decide
  have key : number * 8 + form.code < UInt32.size := by simp [UInt32.size]; omega
  have low : (number * 8 + form.code) % 8 = form.code := by omega
  have high : (number * 8 + form.code) / 8 = number := by omega
  have eight : 8 ≤ number * 8 + form.code := by omega
  rw [readKey, Varint.decode_encode (Nat.lt_trans key (by decide))]
  simp [low, high, key, eight]

theorem split_append (front rest : Bytes) :
    split front.length (front ++ rest) = some (front, rest) := by
  simp [split]

theorem readPlain_encode {p : Payload} (fits : p.Fits) (rest : Bytes) :
    readPlain p.form (p.encode ++ rest) = some (some p, rest) := by
  cases p with
  | number w =>
    simp [Payload.form, Payload.encode, readPlain, Varint.decode_encode w.toNat_lt]
  | chunk bs =>
    simp [Payload.form, Payload.encode, readPlain, Varint.decode_encode fits, split_append]

theorem read_encodeAs {budget number : Nat} {p : Payload} (pos : 0 < number)
    (small : number < 2 ^ 29) (fits : p.Fits) (rest : Bytes) :
    read budget (p.encodeAs number ++ rest) = some (⟨number, some p⟩, rest) := by
  have plain : p.form ≠ .groupStart := by cases p <;> exact nofun
  rw [read, Payload.encodeAs, List.append_assoc, readKey_encode pos small]
  simp [plain, readPlain_encode fits]

theorem readAll_encodeAll {budget : Nat} {fs : List (Nat × Payload)}
    (numbers : ∀ f ∈ fs, 0 < f.1 ∧ f.1 < 2 ^ 29) (fits : ∀ f ∈ fs, f.2.Fits) :
    readAll budget (encodeAll fs) = some (fs.map fun (n, p) => ⟨n, some p⟩) := by
  induction fs with
  | nil => simp [encodeAll, readAll]
  | cons f fs ih =>
    obtain ⟨n, p⟩ := f
    obtain ⟨⟨pos, small⟩, numbers⟩ := List.forall_mem_cons.mp numbers
    obtain ⟨p_fits, fits⟩ := List.forall_mem_cons.mp fits
    have first := @read_encodeAs budget _ _ pos small p_fits (encodeAll fs)
    have some_byte : p.encodeAs n ++ encodeAll fs ≠ [] := by
      simp [Payload.encodeAs, Varint.encode_ne_nil]
    rw [encodeAll, List.flatMap_cons, ← encodeAll, readAll, if_neg (by simpa using some_byte)]
    split
    · next missing => simp [first] at missing
    · next found =>
      obtain ⟨rfl, rfl⟩ : _ ∧ _ := by simpa [first] using found.symm
      simp [ih numbers fits]

/-- A chunk is shorter than the record it is in. -/
theorem length_lt_encodeAll {fs : List (Nat × Payload)} {n : Nat} {bs : Bytes}
    (h : (n, .chunk bs) ∈ fs) : bs.length < (encodeAll fs).length := by
  obtain ⟨before, after, rfl⟩ := List.append_of_mem h
  have key := Varint.encode_ne_nil (n * 8 + (Payload.chunk bs).form.code)
  have pos := List.length_pos_of_ne_nil key
  simp only [encodeAll, List.flatMap_append, List.flatMap_cons, List.length_append,
    Payload.encodeAs, Payload.encode]
  omega

theorem fits_of_short {fs : List (Nat × Payload)} (short : (encodeAll fs).length < UInt64.size) :
    ∀ f ∈ fs, f.2.Fits := by
  rintro ⟨n, p⟩ h
  cases p with
  | number w => trivial
  | chunk bs => exact Nat.lt_trans (length_lt_encodeAll h) short

theorem readInto_encodeAll {ρ : Type} {budget : Nat} {set : ρ → Field → Option ρ} {initial : ρ}
    {fs : List (Nat × Payload)} (numbers : ∀ f ∈ fs, 0 < f.1 ∧ f.1 < 2 ^ 29)
    (fits : ∀ f ∈ fs, f.2.Fits) :
    readInto budget set initial (encodeAll fs) =
      (fs.map fun (n, p) => ⟨n, some p⟩ : List Field).foldlM set initial := by
  rw [readInto, readAll_encodeAll numbers fits]
  rfl

end Field

namespace Envelope

theorem length_lt_encode (e : Envelope) : e.body.length < e.encode.length :=
  @Field.length_lt_encodeAll e.fields 2 _ (by simp [fields])

theorem decodeIn_encode_of_fits {budget : Nat} {e : Envelope} (fits : ∀ f ∈ e.fields, f.2.Fits) :
    decodeIn budget e.encode = some e := by
  rw [decodeIn, encode, Field.readInto_encodeAll (by simp [fields]) fits]
  simp [fields, set, Payload.toChunk?]

theorem decodeIn_encode {budget : Nat} {e : Envelope} (short : e.encode.length < UInt64.size) :
    decodeIn budget e.encode = some e :=
  decodeIn_encode_of_fits (Field.fits_of_short short)

end Envelope

namespace SingleRecord

theorem decode?_encode_of_fits {r : SingleRecord} (fits : ∀ f ∈ r.fields, f.2.Fits) :
    decode? r.encode = some r := by
  rw [decode?, encode, Field.readInto_encodeAll _ fits]
  · obtain ⟨_, _, _, _, latest⟩ := r
    cases latest <;> simp [fields, set, Payload.toChunk?]
  · obtain ⟨_, _, _, _, latest⟩ := r
    cases latest <;> simp [fields]

theorem decode?_encode {r : SingleRecord} (short : r.encode.length < UInt64.size) :
    decode? r.encode = some r :=
  decode?_encode_of_fits (Field.fits_of_short short)

end SingleRecord

namespace CompositeRecord

theorem length_lt_encode {r : CompositeRecord} {e : Envelope} (h : e ∈ r.parts) :
    e.encode.length < r.encode.length := by
  refine @Field.length_lt_encodeAll _ 2 _ (List.mem_cons_of_mem _ ?_)
  exact List.mem_map.mpr ⟨e, h, rfl⟩

theorem foldlM_set {r : CompositeRecord} {es : List Envelope}
    (short : ∀ e ∈ es, e.encode.length < UInt64.size) :
    (es.map fun e => ⟨2, some (.chunk e.encode)⟩ : List Field).foldlM set r =
      some { r with parts := r.parts ++ es } := by
  induction es generalizing r with
  | nil => simp
  | cons e es ih =>
    obtain ⟨e_short, short⟩ := List.forall_mem_cons.mp short
    rw [List.map_cons, List.foldlM_cons]
    simp [set, Payload.toChunk?, Envelope.decodeIn_encode e_short, ih short]

theorem decode?_encode_of_fits {r : CompositeRecord} (fits : ∀ f ∈ r.fields, f.2.Fits) :
    decode? r.encode = some r := by
  rw [decode?, encode, Field.readInto_encodeAll _ fits]
  · have parts : ∀ e ∈ r.parts, e.encode.length < UInt64.size :=
      fun e h => fits (2, .chunk e.encode) (List.mem_cons_of_mem _ (List.mem_map_of_mem h))
    have first :
        set {} ⟨1, some (.ofInt32 r.connective)⟩ = some { connective := r.connective } := by
      simp [set]
    rw [fields, List.map_cons, List.foldlM_cons, List.map_map, first]
    exact foldlM_set parts
  · simp [fields]

theorem decode?_encode {r : CompositeRecord} (short : r.encode.length < UInt64.size) :
    decode? r.encode = some r :=
  decode?_encode_of_fits (Field.fits_of_short short)

end CompositeRecord

end TableWire
