import TableWire.Proofs.Row.Canonical
import TableWire.Proofs.Value.Delimited
/-!
When rows can be written. Besides a row without cells, writers refuse nothing but lengths over their
limit, and rows that keep to it have a canonical form, so they are written.
-/

namespace TableWire

theorem exists_map_eq {α β : Type} {p : β → Prop} {f : β → α} {xs : List α}
    (h : ∀ x ∈ xs, ∃ y, p y ∧ f y = x) : ∃ ys : List β, (∀ y ∈ ys, p y) ∧ ys.map f = xs := by
  induction xs with
  | nil => exact ⟨[], nofun, rfl⟩
  | cons x xs ih =>
    obtain ⟨first, others⟩ := List.forall_mem_cons.mp h
    obtain ⟨y, hy, rfl⟩ := first
    obtain ⟨ys, hys, rfl⟩ := ih others
    exact ⟨y :: ys, List.forall_mem_cons.mpr ⟨hy, hys⟩, rfl⟩

namespace Emit

variable {α β : Type}

/-- The writer fails for nothing but the length of a field. -/
def OnlyOverflows (e : Emit α) : Prop :=
  ∀ out err out', e out = .error err out' → ∃ field n, err = .lengthOverflow field n

theorem onlyOverflows_pure (a : α) : (pure a : Emit α).OnlyOverflows := nofun

theorem onlyOverflows_bytes (bs : Bytes) : (bytes bs).OnlyOverflows := nofun

theorem onlyOverflows_sized (field : SizedField) (bs : Bytes) :
    (sized field bs).OnlyOverflows := by
  rw [sized]
  split
  · exact onlyOverflows_bytes _
  · intro out err out' run
    cases run
    exact ⟨field, bs.length, rfl⟩

theorem OnlyOverflows.bind {p : Emit α} {f : α → Emit β} (hp : p.OnlyOverflows)
    (hf : ∀ a, (f a).OnlyOverflows) : (p >>= f).OnlyOverflows := by
  intro out err out' run
  simp only [Bind.bind, EStateM.bind] at run
  split at run
  · exact hf _ _ _ _ run
  · next failed =>
    cases run
    exact hp _ _ _ failed

/-- What a writer appends to an empty buffer, taken over into another. -/
theorem OnlyOverflows.ofExcept_output {e : Emit α} (h : e.OnlyOverflows) :
    (MonadExcept.ofExcept e.output : Emit Bytes).OnlyOverflows := by
  rw [output]
  split
  · exact onlyOverflows_pure _
  · next failed =>
    intro out err out' run
    cases run
    exact h _ _ _ failed

end Emit

namespace Value

theorem onlyOverflows_emit (v : Value) : v.emit.OnlyOverflows := by
  refine (Emit.onlyOverflows_bytes _).bind fun _ => ?_
  cases v with
  | int n => exact Emit.onlyOverflows_bytes _
  | double d => exact Emit.onlyOverflows_bytes _
  | bool b => exact Emit.onlyOverflows_bytes _
  | str s => exact Emit.onlyOverflows_sized _ _
  | blob bs => exact Emit.onlyOverflows_sized _ _
  | null => exact Emit.onlyOverflows_pure _
  | infMin => exact Emit.onlyOverflows_pure _
  | infMax => exact Emit.onlyOverflows_pure _
  | autoIncrement => exact Emit.onlyOverflows_pure _

theorem fits_of_encodedSize {v : Value} (h : v.encodedSize ≤ Emit.maxLength) : v.Fits := by
  cases v with
  | str s =>
    simp only [encodedSize, payloadSize] at h
    simp only [Fits]
    omega
  | blob bs =>
    simp only [encodedSize, payloadSize] at h
    simp only [Fits]
    omega
  | _ => trivial

theorem exists_field {v : Value} (h : v.encodedSize ≤ Emit.maxLength) :
    ∃ f : Field, (f.form.Canonical ∧ f.form.bytes.length ≤ Emit.maxLength) ∧ f.form.value = v := by
  obtain ⟨bs, written⟩ := exists_encode (fits_of_encodedSize h)
  have length := length_encode written
  obtain ⟨f, canonical, rfl, rfl⟩ := encode_eq_ok.mp written
  rw [← length] at h
  exact ⟨⟨f, Nat.lt_of_le_of_lt h (by decide)⟩, ⟨canonical, h⟩, rfl⟩

end Value

namespace Cell

/-- The lengths written with the cell are within the limit of writers. -/
structure Fits (c : Cell) : Prop where
  name : Utf8.length c.name ≤ Emit.maxLength
  value : ∀ v ∈ c.value, v.encodedSize ≤ Emit.maxLength

instance (c : Cell) : Decidable c.Fits :=
  decidable_of_iff (Utf8.length c.name ≤ Emit.maxLength ∧
    ∀ v ∈ c.value, v.encodedSize ≤ Emit.maxLength) ⟨fun ⟨name, value⟩ => ⟨name, value⟩,
      fun ⟨name, value⟩ => ⟨name, value⟩⟩

theorem onlyOverflows_emitValue (v : Value) : (emitValue v).OnlyOverflows := by
  refine v.onlyOverflows_emit.ofExcept_output.bind fun bs => ?_
  refine (Emit.onlyOverflows_bytes _).bind fun _ => ?_
  exact (Emit.onlyOverflows_sized _ _).bind fun _ => Emit.onlyOverflows_pure _

theorem onlyOverflows_emit (c : Cell) : c.emit.OnlyOverflows := by
  rw [emit_eq]
  refine (Emit.onlyOverflows_bytes _).bind fun _ => ?_
  refine (Emit.onlyOverflows_sized _ _).bind fun _ => Emit.OnlyOverflows.bind ?_ fun value => ?_
  · cases c.value with
    | none => exact Emit.onlyOverflows_pure _
    | some v =>
      rw [Option.mapM_some, ← bind_pure_comp]
      exact (onlyOverflows_emitValue v).bind fun _ => Emit.onlyOverflows_pure _
  · refine (Emit.onlyOverflows_bytes _).bind fun _ => (Emit.onlyOverflows_bytes _).bind fun _ => ?_
    exact (Emit.onlyOverflows_bytes _).bind fun _ => Emit.onlyOverflows_pure _

theorem Fits.exists_form {c : Cell} (h : c.Fits) : ∃ f : Form, f.Canonical ∧ f.cell = c := by
  obtain ⟨name, v, o, t⟩ := c
  suffices ∃ field : Option Value.Field, (∀ f ∈ field, f.form.Canonical ∧
      f.form.bytes.length ≤ Emit.maxLength) ∧ field.map (·.form.value) = v by
    obtain ⟨field, canonical, rfl⟩ := this
    let f : Form := ⟨name, field, o, t,
      some (checksumOf name (field.map (·.form.bytes)) o t), Nat.lt_of_le_of_lt h.name (by decide)⟩
    exact ⟨f, ⟨h.name, canonical, rfl⟩, rfl⟩
  cases v with
  | none => exact ⟨none, nofun, rfl⟩
  | some v =>
    obtain ⟨f, canonical, rfl⟩ := Value.exists_field (h.value v rfl)
    exact ⟨some f, by simpa using canonical, rfl⟩

theorem exists_forms {cells : List Cell} (h : ∀ c ∈ cells, c.Fits) :
    ∃ fs : List Form, (∀ f ∈ fs, f.Canonical) ∧ fs.map (·.cell) = cells :=
  exists_map_eq fun c hc => (h c hc).exists_form

/-- The checksums of cells are those in their canonical forms. -/
theorem mapM_checksum {fs : List Form} (h : ∀ f ∈ fs, f.Canonical) :
    (fs.map (·.cell)).mapM checksum = .ok (fs.map (·.computed)) := by
  induction fs with
  | nil => rfl
  | cons f fs ih =>
    obtain ⟨hf, h⟩ := List.forall_mem_cons.mp h
    rw [List.map_cons, List.mapM_cons, hf.checksum_cell, ih h]
    rfl

end Cell

namespace Group

theorem onlyOverflows_emitCells (seed : UInt8) (cells : List Cell) :
    (emitCells seed cells).OnlyOverflows := by
  induction cells generalizing seed with
  | nil => exact Emit.onlyOverflows_pure _
  | cons c cells ih => exact c.onlyOverflows_emit.bind fun k => ih (Crc8.add seed k)

theorem onlyOverflows_emit (g : Group) (cells : List Cell) (seed : UInt8) :
    (g.emit cells seed).OnlyOverflows := by
  rw [emit]
  split
  · exact Emit.onlyOverflows_pure _
  · exact (Emit.onlyOverflows_bytes _).bind fun _ => onlyOverflows_emitCells seed cells

/-- A group appends to any buffer, and returns the fold of the checksums of its cells. -/
theorem exists_emit {cells : List Cell} (h : ∀ c ∈ cells, c.Fits) (g : Group) (seed : UInt8) :
    ∃ ks bytes, cells.mapM Cell.checksum = .ok ks ∧
      ∀ out, g.emit cells seed out = .ok (Crc8.fold seed ks) (out ++ (bytes : Bytes)) := by
  obtain ⟨fs, canonical, rfl⟩ := Cell.exists_forms h
  exact ⟨_, Row.Form.groupPart g (form fs), Cell.mapM_checksum canonical,
    fun out => emit_eq_ok.mpr ⟨fs, canonical, rfl, rfl, rfl⟩⟩

end Group

namespace Row

def Fits (r : Row) : Prop := ∀ c ∈ r.primaryKey ++ r.attributes, c.Fits

instance (r : Row) : Decidable r.Fits :=
  inferInstanceAs (Decidable (∀ c ∈ r.primaryKey ++ r.attributes, c.Fits))

theorem Fits.exists_form {r : Row} (h : r.Fits) (some_cell : r.hasCells) :
    ∃ f : Form, f.Canonical ∧ f.wire.row = r := by
  obtain ⟨pk, attr, deleted⟩ := r
  obtain ⟨hpk, hattr⟩ := List.forall_mem_append.mp h
  obtain ⟨pk, pk_canonical, rfl⟩ := Cell.exists_forms hpk
  obtain ⟨attr, attr_canonical, rfl⟩ := Cell.exists_forms hattr
  have same := @Form.row_sealed pk attr deleted
  have cells := List.forall_mem_append.mpr ⟨pk_canonical, attr_canonical⟩
  exact ⟨Form.sealed pk attr deleted, Form.canonical_sealed cells (same ▸ some_cell), same⟩

theorem emit_of_not_hasCells {r : Row} (h : ¬ r.hasCells) (out : Array UInt8) :
    r.emit out = .error .emptyRow out := by
  simp [emit, h, Bind.bind, EStateM.bind, throw, throwThe, MonadExceptOf.throw, EStateM.throw]

theorem onlyOverflows_emit {r : Row} (some_cell : r.hasCells) : r.emit.OnlyOverflows := by
  rw [emit_eq some_cell]
  refine (Group.onlyOverflows_emit _ _ _).bind fun _ => ?_
  refine (Group.onlyOverflows_emit _ _ _).bind fun _ => ?_
  refine (Emit.onlyOverflows_bytes _).bind fun _ => ?_
  exact (Emit.onlyOverflows_bytes _).bind fun _ => Emit.onlyOverflows_pure _

/-- Nothing is written of a row without cells. -/
theorem emit_eq_emptyRow {r : Row} {out out' : Array UInt8} :
    r.emit out = .error .emptyRow out' ↔ ¬ r.hasCells ∧ out' = out := by
  by_cases some_cell : r.hasCells
  · refine iff_of_false (fun run => ?_) fun h => h.1 some_cell
    obtain ⟨_, _, ⟨⟩⟩ := onlyOverflows_emit some_cell _ _ _ run
  · rw [emit_of_not_hasCells some_cell, EStateM.Result.error.injEq]
    simp [some_cell, eq_comm]

/-- The bytes that are written for a row, behind whatever has been written before, and the checksum
that is returned for them. -/
structure WrittenAs (r : Row) (bytes : Bytes) (k : UInt8) : Prop where
  appended : ∀ out, r.emit out = .ok k (out ++ bytes)
  last : bytes.getLast? = some k
  checksum : ∃ ks, (r.primaryKey ++ r.attributes).mapM Cell.checksum = .ok ks ∧
    k = Crc8.fold 0 (ks ++ [r.deleted.toUInt8])

theorem Form.Canonical.writtenAs {f : Form} (h : f.Canonical) :
    f.wire.row.WrittenAs f.bytes f.wire.computed where
  appended out := emit_eq_ok.mpr ⟨f, h, rfl, rfl, rfl⟩
  last := by simp [bytes, storedPart, tagged, h.stored]
  checksum := by
    refine ⟨f.cells.map (·.computed), ?_, computed_wire h.cells⟩
    rw [row_wire, ← List.map_append]
    exact Cell.mapM_checksum h.cells

end Row

end TableWire
