import TableWire.Proofs.Value.Form
import TableWire.Row.Wire
/-!
The written forms of cells. All parts behind the name may be left out, and each is known by its tag
alone, so a form constrains the byte that follows it.
-/

namespace TableWire

/-- A value whose length fits the field that holds it. -/
structure Value.Field : Type where
  form : Value.Form
  fits : form.bytes.length < UInt32.size

namespace Value.Field

theorem ext_of_bytes {f g : Field} (value : f.form.value = g.form.value)
    (bytes : sizedBytes f.form.bytes = sizedBytes g.form.bytes) : f = g := by
  obtain ⟨f, fits⟩ := f
  obtain ⟨g, fits'⟩ := g
  obtain ⟨_, bytes⟩ := List.append_inj bytes (by simp)
  cases Form.ext_of_value_of_bytes value bytes
  rfl

end Value.Field

namespace Cell

structure Form : Type where
  name : String
  value : Option Value.Field
  operation : Option Operation
  timestamp : Option Int64
  /-- The checksum byte. -/
  stored : Option UInt8
  fits : Utf8.length name < UInt32.size

namespace Form

def namePart (f : Form) : Bytes := Tag.name.code :: sizedBytes (Utf8.encode f.name)

def valuePart (f : Form) : Bytes := tagged Tag.value.code (fun v => sizedBytes v.form.bytes) f.value

def operationPart (f : Form) : Bytes := tagged Tag.operation.code (fun o => [o.code]) f.operation

def timestampPart (f : Form) : Bytes :=
  tagged Tag.timestamp.code (fun t => word64 t.toUInt64) f.timestamp

def storedPart (f : Form) : Bytes := tagged Tag.cellChecksum.code (fun k => [k]) f.stored

/-- The cell behind its tag. -/
def bytes (f : Form) : Bytes :=
  f.namePart ++ (f.valuePart ++ (f.operationPart ++ (f.timestampPart ++ f.storedPart)))

def cell (f : Form) : Cell where
  name := f.name
  value := f.value.map (·.form.value)
  operation := f.operation
  timestamp := f.timestamp

/-- The checksum that the written content calls for. -/
def computed (f : Form) : UInt8 :=
  checksumOf f.name (f.value.map (·.form.bytes)) f.operation f.timestamp

def wire (f : Form) : WireCell := ⟨f.cell, f.stored, f.computed⟩

def Verified (f : Form) : Prop := ∀ k ∈ f.stored, k = f.computed

/-- No part that is left out seems to follow. -/
structure Before (f : Form) (rest : Bytes) : Prop where
  value : f.value = none → Avoids Tag.value.code
    (f.operationPart ++ (f.timestampPart ++ (f.storedPart ++ rest)))
  operation : f.operation = none → Avoids Tag.operation.code
    (f.timestampPart ++ (f.storedPart ++ rest))
  timestamp : f.timestamp = none → Avoids Tag.timestamp.code (f.storedPart ++ rest)
  stored : f.stored = none → Avoids Tag.cellChecksum.code rest

/-- The tags of the parts behind the name. -/
def partTags : List Tag := [.value, .operation, .timestamp, .cellChecksum]

theorem before_of_avoids {f : Form} {rest : Bytes} (h : ∀ t ∈ partTags, Avoids t.code rest) :
    f.Before rest where
  value _ := by
    have rest := h .value (by decide)
    exact Layout.avoids_tagged_append (by decide) (Layout.avoids_tagged_append (by decide)
      (Layout.avoids_tagged_append (by decide) rest))
  operation _ := by
    have rest := h .operation (by decide)
    exact Layout.avoids_tagged_append (by decide) (Layout.avoids_tagged_append (by decide) rest)
  timestamp _ := Layout.avoids_tagged_append (by decide) (h .timestamp (by decide))
  stored _ := h .cellChecksum (by decide)

theorem ext_of_wire_of_bytes {f g : Form} (wire : f.wire = g.wire) (bytes : f.bytes = g.bytes) :
    f = g := by
  obtain ⟨name, v, o, t, k, fits⟩ := f
  obtain ⟨_, v', _, _, _, fits'⟩ := g
  simp only [Form.wire, cell, WireCell.mk.injEq, Cell.mk.injEq] at wire
  obtain ⟨⟨rfl, values, rfl, rfl⟩, rfl, _⟩ := wire
  -- all parts but the values are the same bytes on both sides
  have parts := List.append_cancel_right (List.append_cancel_left bytes)
  cases v with
  | none =>
    cases v' with
    | none => rfl
    | some v' => cases values
  | some v =>
    cases v' with
    | none => cases values
    | some v' =>
      cases Value.Field.ext_of_bytes (Option.some.inj values) (List.cons.inj parts).2
      rfl

end Form

end Cell

theorem matchStored_eq_ok {check : Bool} {scope : Scope} {computed : UInt8}
    {stored : Option (Nat × UInt8)} {c d : Cursor} {u : Unit} :
    matchStored check scope computed stored c = .ok u d ↔
      d = c ∧ (check → ∀ k ∈ stored.map (·.2), k = computed) := by
  cases stored with
  | none => simp [matchStored, Scan.pure_eq_ok, eq_comm]
  | some stored =>
    by_cases bad : check ∧ stored.2 ≠ computed
    · simp [matchStored, bad, Scan.not_fail_ok]
    · have good : check → stored.2 = computed := fun h => not_not.mp fun h' => bad ⟨h, h'⟩
      rw [matchStored, if_neg bad, Scan.pure_eq_ok]
      constructor
      · rintro ⟨_, rfl⟩
        exact ⟨rfl, fun h k hk => Option.some.inj hk ▸ good h⟩
      · rintro ⟨rfl, _⟩
        exact ⟨rfl, rfl⟩

namespace WireCell

theorem scanName_eq_ok {c d : Cursor} {name : String} :
    scanName c = .ok name d ↔ Utf8.length name < UInt32.size ∧
      c.Spans (Tag.name.code :: sizedBytes (Utf8.encode name)) d := by
  simp only [scanName, Scan.bind_eq_ok, Scan.position_eq_ok, Bool.exists_bool]
  rw [Cursor.spans_cons]
  constructor
  · rintro ⟨_, _, ⟨rfl, rfl⟩, ⟨e, _, run⟩ | ⟨e, found, run⟩⟩
    · exact absurd run Scan.not_fail_ok
    · obtain ⟨fits, span⟩ := Value.scanText_eq_ok.mp run
      exact ⟨fits, e, Scan.accept_eq_true.mp found, span⟩
  · rintro ⟨fits, e, span, span'⟩
    exact ⟨_, c, ⟨rfl, rfl⟩, .inr ⟨e, Scan.accept_eq_true.mpr span,
      Value.scanText_eq_ok.mpr ⟨fits, span'⟩⟩⟩

theorem scanValue_reads : scanValue.Reads
    (.plain (fun f : Value.Field => sizedBytes f.form.bytes)
      fun f => (f.form.bytes, f.form.value)) := by
  intro c ⟨bs, v⟩ d
  simp only [scanValue, Scan.bind_eq_ok, Prod.exists, Scan.word32_eq_ok, Scan.window_eq_ok,
    Scan.within_eq_ok, Layout.plain]
  constructor
  · rintro ⟨n, c₁, span, field, c₂, ⟨span', size, _⟩, v', left, _, ⟨run, rfl⟩, run'⟩
    obtain ⟨f, span'', rfl, _⟩ := (Value.scan_reads field v' left).mp run
    cases ended : left.rest with
    | cons b bs =>
      simp only [ended] at run'
      exact absurd run' Scan.not_fail_ok
    | nil =>
      simp only [ended] at run'
      obtain ⟨⟨⟩, rfl⟩ := Scan.pure_eq_ok.mp run'
      have whole : field.rest = f.bytes := by rw [span''.rest, ended, List.append_nil]; rfl
      rw [whole] at size span' ⊢
      refine ⟨⟨f, size ▸ n.toNat_lt⟩, ?_, rfl, trivial⟩
      exact (show c.Spans (word32 f.bytes.length) c₁ from size ▸ span).trans span'
  · rintro ⟨⟨f, fits⟩, span, ⟨⟩, _⟩
    obtain ⟨c₁, span, span'⟩ := Cursor.spans_append.mp span
    refine ⟨UInt32.ofNat f.bytes.length, c₁, ?_, ⟨c₁.offset, f.bytes⟩, d, ⟨span', ?_, rfl⟩, f.value,
      ⟨c₁.offset + f.bytes.length, []⟩, d, ⟨?_, rfl⟩, rfl⟩
    · rw [UInt32.toNat_ofNat_of_lt' fits]
      exact span
    · rw [UInt32.toNat_ofNat_of_lt' fits]
    · exact (Value.scan_reads _ _ _).mpr ⟨f, ⟨(List.append_nil _).symm, rfl⟩, rfl, trivial⟩

theorem scanOperation_reads : scanOperation.Reads (.plain (fun o => [o.code]) id) := by
  intro c o d
  simp only [scanOperation, Scan.bind_eq_ok, Prod.exists, Scan.located_eq_ok, Scan.byte_eq_ok,
    Layout.plain]
  constructor
  · rintro ⟨_, code, e, ⟨_, span⟩, run⟩
    cases found : Operation.ofCode? code with
    | none =>
      simp only [found] at run
      exact absurd run Scan.not_fail_ok
    | some o' =>
      simp only [found] at run
      obtain ⟨rfl, rfl⟩ := Scan.pure_eq_ok.mp run
      exact ⟨o', Operation.ofCode?_eq_some_iff.mp found ▸ span, rfl, trivial⟩
  · rintro ⟨o, span, rfl, _⟩
    refine ⟨_, o.code, d, ⟨rfl, span⟩, ?_⟩
    simp only [Operation.ofCode?_code]
    rfl

theorem scanTimestamp_reads : scanTimestamp.Reads (.plain (fun t => word64 t.toUInt64) id) := by
  intro c t d
  rw [scanTimestamp, Scan.bind_eq_ok]
  simp only [Scan.word64_eq_ok, Scan.pure_eq_ok, Layout.plain]
  constructor
  · rintro ⟨w, _, span, rfl, rfl⟩
    exact ⟨w.toInt64, span, rfl, trivial⟩
  · rintro ⟨t, span, rfl, _⟩
    exact ⟨t.toUInt64, d, span, rfl, rfl⟩

end WireCell

namespace Cell.Form

def layout (check : Bool) : Layout Form WireCell where
  bytes := Form.bytes
  content := Form.wire
  Before f rest := f.Before rest ∧ (check → f.Verified)

def many : Layout (List Form) (List WireCell) := (layout false).many Tag.cell.code

theorem manyBefore_iff {check : Bool} {fs : List Form} {rest : Bytes} :
    (layout check).ManyBefore Tag.cell.code fs rest ↔
      many.Before fs rest ∧ (check → ∀ f ∈ fs, f.Verified) := by
  induction fs with
  | nil => simp [many, Layout.many, Layout.ManyBefore]
  | cons f fs ih =>
    simp only [many, Layout.many, Layout.ManyBefore, layout, List.forall_mem_cons] at ih ⊢
    rw [ih]
    simp only [Layout.manyBytes]
    grind

/-- Cells do not merge with what follows, when that is no cell and no part of one. -/
theorem many_before_of_avoids {fs : List Form} {rest : Bytes} (cell : Avoids Tag.cell.code rest)
    (parts : ∀ t ∈ partTags, Avoids t.code rest) : many.Before fs rest := by
  induction fs with
  | nil => exact cell
  | cons f fs ih =>
    refine ⟨⟨before_of_avoids fun t ht => ?_, nofun⟩, ih⟩
    refine Layout.avoids_many_append ?_ (parts t ht)
    intro same
    exact absurd (Tag.code_injective same ▸ ht) (by decide)

end Cell.Form

namespace WireCell

theorem scanParts_eq_ok {c d : Cursor} {w : WireCell} {stored : Option (Nat × UInt8)} :
    scanParts c = .ok (w, stored) d ↔
      ∃ f : Cell.Form, c.Spans f.bytes d ∧ f.wire = w ∧
        stored = f.stored.map (fun k => (d.offset - 1, k)) ∧ f.Before d.rest := by
  simp only [scanParts, Scan.bind_eq_ok, scanName_eq_ok, scanValue_reads.optional_plain_eq_ok,
    scanOperation_reads.optional_plain_eq_ok, scanTimestamp_reads.optional_plain_eq_ok,
    Scan.optional_located_byte_eq_ok, Scan.pure_eq_ok, Prod.mk.injEq]
  constructor
  · rintro ⟨name, c₁, ⟨fits, nameSpan⟩, _, c₂, ⟨value, valueSpan, rfl, noValue⟩,
      _, c₃, ⟨operation, operationSpan, rfl, noOperation⟩,
      _, c₄, ⟨timestamp, timestampSpan, rfl, noTimestamp⟩,
      _, c₅, ⟨stored, storedSpan, rfl, noStored⟩, ⟨rfl, rfl⟩, rfl⟩
    refine ⟨⟨name, value, operation, timestamp, stored, fits⟩, nameSpan.trans (valueSpan.trans
      (operationSpan.trans (timestampSpan.trans storedSpan))), ?_,
      Scan.place_of_tagged storedSpan, ?_, ?_, ?_, noStored⟩
    · simp [Cell.Form.wire, Cell.Form.cell, Cell.Form.computed, Function.comp_def]
    · intro h
      have avoids := noValue h
      rwa [operationSpan.rest, timestampSpan.rest, storedSpan.rest] at avoids
    · intro h
      have avoids := noOperation h
      rwa [timestampSpan.rest, storedSpan.rest] at avoids
    · intro h
      have avoids := noTimestamp h
      rwa [storedSpan.rest] at avoids
  · rintro ⟨f, span, rfl, rfl, before⟩
    obtain ⟨c₁, nameSpan, span⟩ := Cursor.spans_append.mp span
    obtain ⟨c₂, valueSpan, span⟩ := Cursor.spans_append.mp span
    obtain ⟨c₃, operationSpan, span⟩ := Cursor.spans_append.mp span
    obtain ⟨c₄, timestampSpan, storedSpan⟩ := Cursor.spans_append.mp span
    refine ⟨f.name, c₁, ⟨f.fits, nameSpan⟩, _, c₂, ⟨f.value, valueSpan, rfl, ?_⟩,
      _, c₃, ⟨f.operation, operationSpan, rfl, ?_⟩, _, c₄, ⟨f.timestamp, timestampSpan, rfl, ?_⟩,
      _, d, ⟨f.stored, storedSpan, rfl, before.stored⟩, ⟨?_, Scan.place_of_tagged storedSpan⟩, rfl⟩
    · rw [operationSpan.rest, timestampSpan.rest, storedSpan.rest]
      exact before.value
    · rw [timestampSpan.rest, storedSpan.rest]
      exact before.operation
    · rw [storedSpan.rest]
      exact before.timestamp
    · simp [Cell.Form.wire, Cell.Form.cell, Cell.Form.computed, Function.comp_def]

theorem scan_reads (check : Bool) : (scan check).Reads (Cell.Form.layout check) := by
  intro c w d
  rw [scan_eq, Scan.bind_eq_ok]
  simp only [Prod.exists, scanParts_eq_ok, Scan.bind_eq_ok, matchStored_eq_ok, Scan.pure_eq_ok]
  constructor
  · rintro ⟨_, _, e, ⟨f, span, rfl, rfl, before⟩, _, _, ⟨rfl, verified⟩, rfl, rfl⟩
    refine ⟨f, span, rfl, before, fun h k hk => verified h k ?_⟩
    simpa [Function.comp_def] using hk
  · rintro ⟨f, span, rfl, before, verified⟩
    refine ⟨_, _, d, ⟨f, span, rfl, rfl, before⟩, (), d, ⟨rfl, fun h k hk => verified h k ?_⟩, rfl,
      rfl⟩
    simpa [Function.comp_def] using hk

end WireCell

namespace Cell.Form

theorem layout_unambiguous (check : Bool) : (layout check).Unambiguous :=
  (WireCell.scan_reads check).unambiguous fun _ _ => ext_of_wire_of_bytes

theorem unambiguous {f g : Form} {rest rest' : Bytes} (same : f.bytes ++ rest = g.bytes ++ rest')
    (before : f.Before rest) (before' : g.Before rest') : f = g ∧ rest = rest' :=
  layout_unambiguous false same ⟨before, nofun⟩ ⟨before', nofun⟩

end Cell.Form

end TableWire
