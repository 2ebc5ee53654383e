import Mathlib.Data.Set.Function
import TableWire.Proofs.Record.RoundTrip
/-!
No record is lost in writing. The words of enumerations need not name anything, and the only limit
is on lengths, which are written as numbers of 64 bits.
-/

namespace TableWire

theorem Varint.length_encode_le {n size : Nat} (h : n < 128 ^ (size + 1)) :
    (encode n).length ≤ size + 1 := by
  induction size generalizing n with
  | zero =>
    rw [encode, if_pos (by simpa using h)]
    simp
  | succ size ih =>
    rw [encode]
    split
    · simp
    · have rest := @ih (n / 128) (by omega)
      rw [List.length_cons]
      omega

/-- Byte strings in memory have lengths of 63 bits. -/
def Addressable (bs : Bytes) : Prop := bs.length < 2 ^ 63

namespace Addressable

variable {bs : Bytes}

theorem lt_size (h : Addressable bs) : bs.length < UInt64.size := Nat.lt_trans h (by decide)

theorem fits (h : Addressable bs) : (Payload.chunk bs).Fits := h.lt_size

end Addressable

namespace Envelope

/-- An envelope adds keys, a word and a length to its body, each of at most ten bytes. -/
theorem length_encode_lt {e : Envelope} (h : Addressable e.body) :
    e.encode.length < UInt64.size := by
  have digits {n : Nat} (hn : n < UInt64.size) : (Varint.encode n).length ≤ 10 :=
    Varint.length_encode_le (Nat.lt_trans hn (by decide))
  have word := digits e.kind.toInt64.toUInt64.toNat_lt
  have length := digits h.lt_size
  have first := @digits (1 * 8 + 0) (by decide)
  have second := @digits (2 * 8 + 2) (by decide)
  have body : e.body.length < 2 ^ 63 := h
  simp only [encode, fields, Field.encodeAll, List.flatMap_cons, List.flatMap_nil, List.append_nil,
    Payload.encodeAs, Payload.encode, Payload.ofInt32, Payload.form, WireForm.code,
    List.length_append, UInt64.size]
  omega

end Envelope

namespace SingleRecord

theorem fits {r : SingleRecord} (column : Addressable (Utf8.encode r.column))
    (operand : Addressable r.operand) : ∀ f ∈ r.fields, f.2.Fits := by
  intro f h
  simp only [fields, List.mem_append, List.mem_cons, List.not_mem_nil, or_false, List.mem_map] at h
  obtain (rfl | rfl | rfl | rfl) | ⟨latest, -, rfl⟩ := h
  · trivial
  · exact column.fits
  · exact operand.fits
  · trivial
  · trivial

end SingleRecord

namespace CompositeRecord

theorem fits {r : CompositeRecord} (bodies : ∀ e ∈ r.parts, Addressable e.body) :
    ∀ f ∈ r.fields, f.2.Fits := by
  refine List.forall_mem_cons.mpr ⟨trivial, ?_⟩
  rw [List.forall_mem_map]
  exact fun e h => Envelope.length_encode_lt (bodies e h)

end CompositeRecord

/-- Records that are read as they were written are not written alike. -/
theorem injOn_of_read {ρ : Type} {write : ρ → Bytes} {read : Bytes → Option ρ} {records : Set ρ}
    (h : ∀ r ∈ records, read (write r) = some r) : Set.InjOn write records := by
  have both : Set.InjOn (read ∘ write) records :=
    (Option.some_injective ρ).injOn.congr fun r mem => (h r mem).symm
  exact both.of_comp

/-- Every record is read as it was written, so that its bytes tell it from any other. -/
theorem decode?_encode_record :
    (∀ e : Envelope, Addressable e.body → Envelope.decode? e.encode = some e) ∧
    (∀ r : SingleRecord, Addressable (Utf8.encode r.column) → Addressable r.operand →
      SingleRecord.decode? r.encode = some r) ∧
    (∀ r : CompositeRecord, (∀ e ∈ r.parts, Addressable e.body) →
      CompositeRecord.decode? r.encode = some r) ∧
    Set.InjOn Envelope.encode {e | Addressable e.body} ∧
    Set.InjOn SingleRecord.encode {r | Addressable (Utf8.encode r.column) ∧ Addressable r.operand} ∧
    Set.InjOn CompositeRecord.encode {r | ∀ e ∈ r.parts, Addressable e.body} := by
  have envelope (e : Envelope) (body : Addressable e.body) : Envelope.decode? e.encode = some e :=
    Envelope.decodeIn_encode (Envelope.length_encode_lt body)
  have single (r : SingleRecord) (column : Addressable (Utf8.encode r.column))
      (operand : Addressable r.operand) : SingleRecord.decode? r.encode = some r :=
    SingleRecord.decode?_encode_of_fits (SingleRecord.fits column operand)
  have composite (r : CompositeRecord) (bodies : ∀ e ∈ r.parts, Addressable e.body) :
      CompositeRecord.decode? r.encode = some r :=
    CompositeRecord.decode?_encode_of_fits (CompositeRecord.fits bodies)
  exact ⟨envelope, single, composite, injOn_of_read envelope,
    injOn_of_read fun r h => single r h.1 h.2, injOn_of_read composite⟩

/-- Words that name nothing, and a flag that is false, which is not one that is missing. -/
theorem decode?_encode_record_unknown_words :
    Envelope.decode? (Envelope.encode ⟨-7, [2, 0, 255]⟩) = some ⟨-7, [2, 0, 255]⟩ ∧
    SingleRecord.decode? (SingleRecord.encode ⟨99, "é", [3], true, some false⟩) =
      some ⟨99, "é", [3], true, some false⟩ ∧
    CompositeRecord.decode? (CompositeRecord.encode ⟨0, [⟨-7, [2, 0, 255]⟩, ⟨2, []⟩]⟩) =
      some ⟨0, [⟨-7, [2, 0, 255]⟩, ⟨2, []⟩]⟩ ∧
    SingleRecord.encode ⟨99, "é", [3], true, some false⟩ ≠
      SingleRecord.encode ⟨99, "é", [3], true, none⟩ := by
  have limit {bs : Bytes} (h : bs.length ≤ 3) : Addressable bs := Nat.lt_of_le_of_lt h (by decide)
  have column : Addressable (Utf8.encode "é") := limit (by decide)
  have operand : Addressable [3] := limit (by decide)
  obtain ⟨envelope, single, composite, -, distinct, -⟩ := decode?_encode_record
  refine ⟨envelope _ (limit (by decide)), single _ column operand, composite _ ?_, ?_⟩
  · simp only [List.forall_mem_cons, List.not_mem_nil, IsEmpty.forall_iff, implies_true, and_true]
    exact ⟨limit (by decide), limit (by decide)⟩
  · exact distinct.ne ⟨column, operand⟩ ⟨column, operand⟩ (by decide)

end TableWire
