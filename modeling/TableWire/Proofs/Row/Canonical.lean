import TableWire.Proofs.Row.RowForm
/-!
What writers choose among the forms of a cell or row: checksums are always written, and are the
computed ones, and a group is written only when it has cells. Writing succeeds exactly when there is
such a form, and appends it.
-/

namespace TableWire

namespace Cell

structure Form.Canonical (f : Form) : Prop where
  name : Utf8.length f.name ≤ Emit.maxLength
  value : ∀ v ∈ f.value, v.form.Canonical ∧ v.form.bytes.length ≤ Emit.maxLength
  stored : f.stored = some f.computed

theorem emitValue_eq_ok {v : Value} {out out' : Array UInt8} {bs : Bytes} :
    emitValue v out = .ok bs out' ↔
      ∃ f : Value.Field, (f.form.Canonical ∧ f.form.bytes.length ≤ Emit.maxLength) ∧
        f.form.value = v ∧ f.form.bytes = bs ∧
        out' = out ++ (Tag.value.code :: sizedBytes f.form.bytes) := by
  rw [emitValue]
  simp only [Emit.bind_eq_ok, Emit.ofExcept_eq_ok, Value.encode_eq_ok, Emit.byte_eq_ok,
    Emit.sized_eq_ok, Emit.pure_eq_ok]
  constructor
  · rintro ⟨_, _, ⟨⟨f, canonical, rfl, rfl⟩, rfl⟩, _, _, rfl, _, _, ⟨fits, rfl⟩, rfl, rfl⟩
    exact ⟨⟨f, Nat.lt_of_le_of_lt fits (by decide)⟩, ⟨canonical, fits⟩, rfl, rfl,
      Emit.append_append _ _ _⟩
  · rintro ⟨f, ⟨canonical, fits⟩, rfl, rfl, rfl⟩
    exact ⟨_, out, ⟨⟨f.form, canonical, rfl, rfl⟩, rfl⟩, (), _, rfl, (), _, ⟨fits, rfl⟩, rfl,
      (Emit.append_append _ _ _).symm⟩

theorem emitOptionalValue_eq_ok {v : Option Value} {out out' : Array UInt8} {bs : Option Bytes} :
    v.mapM emitValue out = .ok bs out' ↔
      ∃ f : Option Value.Field,
        (∀ v ∈ f, v.form.Canonical ∧ v.form.bytes.length ≤ Emit.maxLength) ∧
        f.map (·.form.value) = v ∧ f.map (·.form.bytes) = bs ∧
        out' = out ++ tagged Tag.value.code (fun v => sizedBytes v.form.bytes) f := by
  cases v with
  | none =>
    simp only [Option.mapM_none, Emit.pure_eq_ok]
    constructor
    · rintro ⟨rfl, rfl⟩
      exact ⟨none, nofun, rfl, rfl, by simp [tagged]⟩
    · rintro ⟨f, _, none, rfl, rfl⟩
      obtain rfl := Option.map_eq_none_iff.mp none
      exact ⟨rfl, by simp [tagged]⟩
  | some v =>
    simp only [Option.mapM_some, Emit.map_eq_ok, emitValue_eq_ok]
    constructor
    · rintro ⟨_, ⟨f, canonical, rfl, rfl, rfl⟩, rfl⟩
      exact ⟨some f, by simpa using canonical, rfl, rfl, rfl⟩
    · rintro ⟨f, canonical, content, rfl, rfl⟩
      obtain ⟨f, rfl, rfl⟩ := Option.map_eq_some_iff.mp content
      exact ⟨_, ⟨f, canonical f rfl, rfl, rfl, rfl⟩, rfl⟩

/-- The parts that may be left out, written one after the other. -/
theorem emit_eq (c : Cell) : c.emit = (do
    Emit.bytes [Tag.cell.code, Tag.name.code]
    Emit.sized .cellName (Utf8.encode c.name)
    let value ← c.value.mapM emitValue
    Emit.bytes (tagged Tag.operation.code (fun o => [o.code]) c.operation)
    Emit.bytes (tagged Tag.timestamp.code (fun t => word64 t.toUInt64) c.timestamp)
    let checksum := checksumOf c.name value c.operation c.timestamp
    Emit.bytes [Tag.cellChecksum.code, checksum]
    return checksum) := by
  rw [emit]
  cases c.operation <;> cases c.timestamp <;> simp [tagged, Emit.bytes_nil]

theorem emit_eq_ok {c : Cell} {out out' : Array UInt8} {k : UInt8} :
    c.emit out = .ok k out' ↔
      ∃ f : Form, f.Canonical ∧ f.cell = c ∧ f.computed = k ∧
        out' = out ++ (Tag.cell.code :: f.bytes) := by
  rw [emit_eq]
  simp only [Emit.bind_eq_ok, Emit.bytes_eq_ok, Emit.sized_eq_ok, emitOptionalValue_eq_ok,
    Emit.pure_eq_ok]
  constructor
  · rintro ⟨_, _, rfl, _, _, ⟨fits, rfl⟩, _, _, ⟨v, canonical, value, rfl, rfl⟩, _, _, rfl,
      _, _, rfl, _, _, rfl, rfl, rfl⟩
    let f : Form := ⟨c.name, v, c.operation, c.timestamp,
      some (checksumOf c.name (v.map (·.form.bytes)) c.operation c.timestamp),
      Nat.lt_of_le_of_lt fits (by decide)⟩
    refine ⟨f, ⟨fits, canonical, rfl⟩, ?_, rfl, ?_⟩
    · obtain ⟨name, _, o, t⟩ := c
      cases value
      rfl
    · apply Array.ext'
      simp [f, Form.bytes, Form.namePart, Form.valuePart, Form.operationPart, Form.timestampPart,
        Form.storedPart, tagged]
  · rintro ⟨f, canonical, rfl, rfl, rfl⟩
    refine ⟨(), _, rfl, (), _, ⟨canonical.name, rfl⟩,
      _, _, ⟨f.value, canonical.value, rfl, rfl, rfl⟩, (), _, rfl, (), _, rfl, (), _, rfl, rfl, ?_⟩
    apply Array.ext'
    simp [Form.bytes, Form.namePart, Form.valuePart, Form.operationPart, Form.timestampPart,
      Form.storedPart, tagged, canonical.stored, Form.cell, Form.computed]

namespace Form.Canonical

variable {f : Form}

/-- The checksum of a cell is the one its canonical form holds. -/
theorem checksum_cell (h : f.Canonical) : f.cell.checksum = .ok f.computed := by
  obtain ⟨name, v, o, t, k, fits⟩ := f
  cases v with
  | none => rfl
  | some v =>
    have encoded : v.form.value.encode = .ok v.form.bytes :=
      Value.encode_eq_ok.mpr ⟨v.form, (h.value v rfl).1, rfl, rfl⟩
    simp only [checksum, Form.cell, Option.map_some, Option.mapM_some, encoded]
    rfl

theorem verified (h : f.Canonical) : f.Verified := by
  intro k hk
  rw [h.stored] at hk
  exact (Option.some.inj hk).symm

theorem effective_wire (h : f.Canonical) : f.wire.effective = f.computed := by
  simp [WireCell.effective, wire, h.stored]

end Form.Canonical

end Cell

namespace Group

/-- The cells of a group that is written only when it has some. -/
def form : List Cell.Form → Option (List Cell.Form)
  | [] => none
  | f :: fs => some (f :: fs)

@[simp] theorem form_getD (fs : List Cell.Form) : (form fs).getD [] = fs := by
  cases fs <;> rfl

theorem form_ne_some_nil (fs : List Cell.Form) : form fs ≠ some [] := by
  cases fs <;> simp [form]

theorem form_getD_of_ne {cells : Option (List Cell.Form)} (h : cells ≠ some []) :
    form (cells.getD []) = cells := by
  cases cells with
  | none => rfl
  | some fs =>
    cases fs with
    | nil => exact absurd rfl h
    | cons f fs => rfl

theorem emitCells_eq_ok {seed k : UInt8} {cells : List Cell} {out out' : Array UInt8} :
    emitCells seed cells out = .ok k out' ↔
      ∃ fs : List Cell.Form, (∀ f ∈ fs, f.Canonical) ∧ fs.map (·.cell) = cells ∧
        Crc8.fold seed (fs.map (·.computed)) = k ∧ out' = out ++ Cell.Form.many.bytes fs := by
  induction cells generalizing seed out with
  | nil =>
    rw [emitCells, Emit.pure_eq_ok]
    constructor
    · rintro ⟨rfl, rfl⟩
      exact ⟨[], nofun, rfl, rfl, Array.appendList_nil.symm⟩
    · rintro ⟨fs, _, none, rfl, rfl⟩
      obtain rfl := List.map_eq_nil_iff.mp none
      exact ⟨rfl, Array.appendList_nil⟩
  | cons c cs ih =>
    rw [emitCells]
    simp only [Emit.bind_eq_ok, Cell.emit_eq_ok, ih]
    constructor
    · rintro ⟨_, _, ⟨f, hf, rfl, rfl, rfl⟩, fs, hfs, rfl, rfl, rfl⟩
      exact ⟨f :: fs, List.forall_mem_cons.mpr ⟨hf, hfs⟩, rfl, rfl, Emit.append_append _ _ _⟩
    · rintro ⟨fs, canonical, content, rfl, rfl⟩
      obtain ⟨f, fs, rfl, rfl, rfl⟩ := List.map_eq_cons_iff.mp content
      obtain ⟨hf, hfs⟩ := List.forall_mem_cons.mp canonical
      exact ⟨_, _, ⟨f, hf, rfl, rfl, rfl⟩, fs, hfs, rfl, rfl, (Emit.append_append _ _ _).symm⟩

theorem emit_eq_ok {g : Group} {seed k : UInt8} {cells : List Cell} {out out' : Array UInt8} :
    g.emit cells seed out = .ok k out' ↔
      ∃ fs : List Cell.Form, (∀ f ∈ fs, f.Canonical) ∧ fs.map (·.cell) = cells ∧
        Crc8.fold seed (fs.map (·.computed)) = k ∧
        out' = out ++ Row.Form.groupPart g (form fs) := by
  cases cells with
  | nil =>
    rw [emit]
    simp only [List.isEmpty_nil, if_true, Emit.pure_eq_ok, List.map_eq_nil_iff]
    constructor
    · rintro ⟨rfl, rfl⟩
      exact ⟨[], nofun, rfl, rfl, Array.appendList_nil.symm⟩
    · rintro ⟨_, _, rfl, rfl, rfl⟩
      exact ⟨rfl, Array.appendList_nil⟩
  | cons c cs =>
    rw [emit]
    simp only [List.isEmpty_cons, Bool.false_eq_true, if_false, Emit.bind_eq_ok, Emit.byte_eq_ok,
      emitCells_eq_ok]
    constructor
    · rintro ⟨_, _, rfl, fs, canonical, content, rfl, rfl⟩
      refine ⟨fs, canonical, content, rfl, ?_⟩
      obtain ⟨f, fs, rfl, _, _⟩ := List.map_eq_cons_iff.mp content
      exact Emit.append_append _ _ _
    · rintro ⟨fs, canonical, content, rfl, rfl⟩
      refine ⟨(), _, rfl, fs, canonical, content, rfl, ?_⟩
      obtain ⟨f, fs, rfl, _, _⟩ := List.map_eq_cons_iff.mp content
      exact (Emit.append_append out [g.tag.code] _).symm

end Group

namespace Row

structure Form.Canonical (f : Form) : Prop where
  primaryKey : f.primaryKey ≠ some []
  attributes : f.attributes ≠ some []
  some_cell : f.wire.row.hasCells
  cells : ∀ c ∈ f.cells, c.Canonical
  stored : f.stored = some f.wire.computed

theorem Form.row_wire (f : Form) : f.wire.row =
    ⟨(f.primaryKey.getD []).map (·.cell), (f.attributes.getD []).map (·.cell), f.deleted⟩ := by
  simp [Form.wire, WireRow.row, Function.comp_def, Cell.Form.wire]

namespace Form.Canonical

variable {f : Form}

theorem verified (h : f.Canonical) : f.Verified where
  cells c hc := (h.cells c hc).verified
  stored k hk := by
    rw [h.stored] at hk
    exact (Option.some.inj hk).symm

theorem computed_wire (h : ∀ c ∈ f.cells, c.Canonical) :
    f.wire.computed = Crc8.fold 0 (f.cells.map (·.computed) ++ [f.deleted.toUInt8]) := by
  have effective : f.wire.cells.map (·.effective) = f.cells.map (·.computed) := by
    rw [Form.cells, wire, WireRow.cells, ← List.map_append, List.map_map]
    exact List.map_congr_left fun c hc => (h c hc).effective_wire
  rw [WireRow.computed, effective]
  rfl

end Form.Canonical

/-- The form a writer chooses for the cells. -/
def Form.sealed (pk attr : List Cell.Form) (deleted : Bool) : Form where
  primaryKey := Group.form pk
  attributes := Group.form attr
  deleted := deleted
  stored := some (Crc8.fold 0 ((pk ++ attr).map (·.computed) ++ [deleted.toUInt8]))

section Sealed

variable {pk attr : List Cell.Form} {deleted : Bool}

@[simp] theorem Form.cells_sealed : (sealed pk attr deleted).cells = pk ++ attr := by
  simp [cells, sealed]

@[simp] theorem Form.row_sealed : (sealed pk attr deleted).wire.row =
    ⟨pk.map (·.cell), attr.map (·.cell), deleted⟩ := by
  simp [row_wire, sealed]

theorem Form.canonical_sealed (cells : ∀ c ∈ pk ++ attr, c.Canonical)
    (some_cell : (sealed pk attr deleted).wire.row.hasCells) :
    (sealed pk attr deleted).Canonical where
  primaryKey := Group.form_ne_some_nil pk
  attributes := Group.form_ne_some_nil attr
  some_cell := some_cell
  cells := by simpa using cells
  stored := by
    rw [Canonical.computed_wire (by simpa using cells), cells_sealed]
    rfl

end Sealed

theorem Form.Canonical.eq_sealed {f : Form} (h : f.Canonical) :
    f = sealed (f.primaryKey.getD []) (f.attributes.getD []) f.deleted := by
  have stored := h.stored
  rw [computed_wire h.cells] at stored
  rw [sealed, Group.form_getD_of_ne h.primaryKey, Group.form_getD_of_ne h.attributes, ← Form.cells,
    ← stored]

theorem emit_eq {r : Row} (some_cell : r.hasCells) : r.emit = (do
    let seed ← Group.primaryKey.emit r.primaryKey 0
    let seed ← Group.attributes.emit r.attributes seed
    Emit.bytes (if r.deleted then [Tag.deleted.code] else [])
    let checksum := Crc8.add seed r.deleted.toUInt8
    Emit.bytes [Tag.rowChecksum.code, checksum]
    return checksum) := by
  rw [emit]
  cases r.deleted <;> simp [some_cell, Emit.byte, Emit.bytes_nil]

theorem emit_eq_ok_sealed {r : Row} (some_cell : r.hasCells) {out out' : Array UInt8} {k : UInt8} :
    r.emit out = .ok k out' ↔
      ∃ pk attr : List Cell.Form, (∀ c ∈ pk ++ attr, c.Canonical) ∧
        (Form.sealed pk attr r.deleted).wire.row = r ∧
        (Form.sealed pk attr r.deleted).stored = some k ∧
        out' = out ++ (Form.sealed pk attr r.deleted).bytes := by
  have written (pk attr : List Cell.Form) :
      out ++ Form.groupPart .primaryKey (Group.form pk) ++
        Form.groupPart .attributes (Group.form attr) ++
        (if r.deleted then [Tag.deleted.code] else []) ++ [Tag.rowChecksum.code, Crc8.add (Crc8.fold
          (Crc8.fold 0 (pk.map (·.computed))) (attr.map (·.computed))) r.deleted.toUInt8] =
        out ++ (Form.sealed pk attr r.deleted).bytes := by
    apply Array.ext'
    simp [Form.sealed, Form.bytes, Form.deletedPart, Form.storedPart, tagged]
  rw [emit_eq some_cell]
  simp only [Emit.bind_eq_ok, Group.emit_eq_ok, Emit.bytes_eq_ok, Emit.pure_eq_ok, Form.row_sealed]
  constructor
  · rintro ⟨_, _, ⟨pk, hpk, keys, rfl, rfl⟩, _, _, ⟨attr, hattr, others, rfl, rfl⟩, _, _, rfl, _, _,
      rfl, rfl, rfl⟩
    refine ⟨pk, attr, List.forall_mem_append.mpr ⟨hpk, hattr⟩, ?_, ?_, written pk attr⟩
    · rw [keys, others]
    · simp [Form.sealed]
  · rintro ⟨pk, attr, cells, content, stored, rfl⟩
    obtain ⟨hpk, hattr⟩ := List.forall_mem_append.mp cells
    refine ⟨_, _, ⟨pk, hpk, congrArg primaryKey content, rfl, rfl⟩, _, _,
      ⟨attr, hattr, congrArg attributes content, rfl, rfl⟩, (), _, rfl, (), _, rfl, ?_,
      (written pk attr).symm⟩
    simpa [Form.sealed] using stored

theorem emit_eq_ok {r : Row} {out out' : Array UInt8} {k : UInt8} :
    r.emit out = .ok k out' ↔
      ∃ f : Form, f.Canonical ∧ f.wire.row = r ∧ f.wire.computed = k ∧ out' = out ++ f.bytes := by
  by_cases some_cell : r.hasCells
  · rw [emit_eq_ok_sealed some_cell]
    constructor
    · rintro ⟨pk, attr, cells, content, stored, rfl⟩
      have canonical := Form.canonical_sealed cells (content ▸ some_cell)
      refine ⟨_, canonical, content, ?_, rfl⟩
      exact Option.some.inj (canonical.stored.symm.trans stored)
    · rintro ⟨f, canonical, rfl, rfl, rfl⟩
      have same := canonical.eq_sealed
      refine ⟨f.primaryKey.getD [], f.attributes.getD [], canonical.cells, ?_⟩
      change (Form.sealed _ _ f.deleted).wire.row = _ ∧ (Form.sealed _ _ f.deleted).stored = _ ∧
        _ = out ++ (Form.sealed _ _ f.deleted).bytes
      rw [← same]
      exact ⟨rfl, canonical.stored, rfl⟩
  · constructor
    · intro run
      simp [emit, some_cell, Bind.bind, EStateM.bind, throw, throwThe, MonadExceptOf.throw,
        EStateM.throw] at run
    · rintro ⟨f, canonical, rfl, _⟩
      exact absurd canonical.some_cell some_cell

end Row

end TableWire
