import TableWire.Proofs.Crc8
import TableWire.Proofs.Row.CellForm
/-!
Frames of cells, which leave open what the bytes of a field stand for. The bytes of a frame tell all
its fields, also where they are the bytes of no cell.
-/

namespace TableWire

namespace Cell

structure Frame : Type where
  name : Bytes
  value : Option Bytes
  operation : Option UInt8
  timestamp : Option Bytes
  /-- The checksum byte. -/
  stored : Option UInt8

namespace Frame

def namePart (f : Frame) : Bytes := Tag.name.code :: sizedBytes f.name

def valuePart (f : Frame) : Bytes := tagged Tag.value.code sizedBytes f.value

def operationPart (f : Frame) : Bytes := tagged Tag.operation.code (fun o => [o]) f.operation

def timestampPart (f : Frame) : Bytes := tagged Tag.timestamp.code id f.timestamp

def storedPart (f : Frame) : Bytes := tagged Tag.cellChecksum.code (fun k => [k]) f.stored

def bytes (f : Frame) : Bytes :=
  f.namePart ++ (f.valuePart ++ (f.operationPart ++ (f.timestampPart ++ f.storedPart)))

/-- The bytes that the checksum covers, in their order. -/
def covered (f : Frame) : Bytes :=
  f.name ++ f.value.getD [] ++ f.timestamp.getD [] ++ f.operation.toList

def computed (f : Frame) : UInt8 := Crc8.fold 0 f.covered

def Verified (f : Frame) : Prop := ∀ k ∈ f.stored, k = f.computed

/-- Every field has a length that can be written. -/
structure Sized (f : Frame) : Prop where
  name : f.name.length < UInt32.size
  value : ∀ v ∈ f.value, v.length < UInt32.size
  timestamp : ∀ t ∈ f.timestamp, t.length = 8

/-- No part that is left out seems to follow. -/
structure Before (f : Frame) (rest : Bytes) : Prop where
  value : f.value = none → Avoids Tag.value.code
    (f.operationPart ++ (f.timestampPart ++ (f.storedPart ++ rest)))
  operation : f.operation = none → Avoids Tag.operation.code
    (f.timestampPart ++ (f.storedPart ++ rest))
  timestamp : f.timestamp = none → Avoids Tag.timestamp.code (f.storedPart ++ rest)
  stored : f.stored = none → Avoids Tag.cellChecksum.code rest

/-- A frame with a checksum ends with it, whatever follows. -/
theorem before_of_stored {f : Frame} (h : f.stored.isSome) (rest : Bytes) : f.Before rest := by
  obtain ⟨name, v, o, t, k⟩ := f
  obtain ⟨k, rfl⟩ := Option.isSome_iff_exists.mp h
  constructor
  all_goals cases o <;> cases t <;>
    simp [operationPart, timestampPart, storedPart, tagged, Tag.code]

theorem unambiguous {f g : Frame} {rest rest' : Bytes}
    (same : f.bytes ++ rest = g.bytes ++ rest') (hf : f.Sized) (hg : g.Sized)
    (before : f.Before rest) (before' : g.Before rest') : f = g ∧ rest = rest' := by
  obtain ⟨name, v, o, t, k⟩ := f
  obtain ⟨name', v', o', t', k'⟩ := g
  simp only [bytes, List.append_assoc] at same
  obtain ⟨rfl, behind⟩ := Layout.sized_unambiguous (List.cons.inj same).2 hf.name hg.name
  obtain ⟨rfl, behind⟩ := Layout.sized_unambiguous.optional Tag.value.code behind
    (Layout.optional_before before.value hf.value) (Layout.optional_before before'.value hg.value)
  obtain ⟨rfl, behind⟩ := Layout.byte_unambiguous.optional Tag.operation.code behind
    (Layout.optional_plain_before_iff.mpr before.operation)
    (Layout.optional_plain_before_iff.mpr before'.operation)
  obtain ⟨rfl, behind⟩ := (Layout.fixed_unambiguous 8).optional Tag.timestamp.code behind
    (Layout.optional_before before.timestamp hf.timestamp)
    (Layout.optional_before before'.timestamp hg.timestamp)
  obtain ⟨rfl, rfl⟩ := Layout.byte_unambiguous.optional Tag.cellChecksum.code behind
    (Layout.optional_plain_before_iff.mpr before.stored)
    (Layout.optional_plain_before_iff.mpr before'.stored)
  exact ⟨rfl, rfl⟩

/-- A checksum is wrong once a byte that it covers has been altered. -/
theorem not_verified_of_altered {f g : Frame} (stored : g.stored = some f.computed)
    (altered : Altered f.covered g.covered) : ¬ g.Verified :=
  fun verified => Crc8.fold_ne_of_altered altered 0 (verified f.computed stored).symm

end Frame

namespace Form

variable {f : Form} {rest : Bytes}

def frame (f : Form) : Frame where
  name := Utf8.encode f.name
  value := f.value.map (·.form.bytes)
  operation := f.operation.map (·.code)
  timestamp := f.timestamp.map fun t => word64 t.toUInt64
  stored := f.stored

@[simp] theorem namePart_frame : f.frame.namePart = f.namePart := rfl

@[simp] theorem valuePart_frame : f.frame.valuePart = f.valuePart := tagged_map

@[simp] theorem operationPart_frame : f.frame.operationPart = f.operationPart := tagged_map

@[simp] theorem timestampPart_frame : f.frame.timestampPart = f.timestampPart := tagged_map

@[simp] theorem storedPart_frame : f.frame.storedPart = f.storedPart := rfl

@[simp] theorem bytes_frame : f.frame.bytes = f.bytes := by simp [Frame.bytes, bytes]

@[simp] theorem computed_frame : f.frame.computed = f.computed := by
  simp [Frame.computed, Frame.covered, frame, computed, checksumOf]

theorem verified_frame : f.frame.Verified ↔ f.Verified := by
  rw [Frame.Verified, computed_frame]
  rfl

theorem sized_frame (f : Form) : f.frame.Sized where
  name := f.fits
  value := by
    simp only [frame, Option.mem_map]
    rintro _ ⟨v, _, rfl⟩
    exact v.fits
  timestamp := by
    simp only [frame, Option.mem_map]
    rintro _ ⟨t, _, rfl⟩
    exact length_word64 _

theorem before_frame : f.frame.Before rest ↔ f.Before rest := by
  have value : f.frame.value = none ↔ f.value = none := Option.map_eq_none_iff
  have operation : f.frame.operation = none ↔ f.operation = none := Option.map_eq_none_iff
  have timestamp : f.frame.timestamp = none ↔ f.timestamp = none := Option.map_eq_none_iff
  constructor
  · intro h
    refine ⟨fun none => ?_, fun none => ?_, fun none => ?_, h.stored⟩
    · simpa using h.value (value.mpr none)
    · simpa using h.operation (operation.mpr none)
    · simpa using h.timestamp (timestamp.mpr none)
  · intro h
    refine ⟨fun none => ?_, fun none => ?_, fun none => ?_, h.stored⟩
    · simpa using h.value (value.mp none)
    · simpa using h.operation (operation.mp none)
    · simpa using h.timestamp (timestamp.mp none)

theorem before_of_stored (h : f.stored.isSome) (rest : Bytes) : f.Before rest :=
  before_frame.mp (Frame.before_of_stored h rest)

end Form

end Cell

end TableWire
