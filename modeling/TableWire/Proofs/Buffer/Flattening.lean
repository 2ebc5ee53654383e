import TableWire.Proofs.Buffer.Limit
import TableWire.Proofs.Buffer.RoundTrip
import TableWire.Proofs.Dictionary
/-!
Rows as maps. Of the cells of one name that have a value the last is kept, and the others do not
count. A row that has been written from two maps is read as the first one overridden by the second.
-/

namespace TableWire

/-- The last of the cells that have the name and a value has this value. -/
def LastValue (cells : List WireCell) (name : String) (v : Value) : Prop :=
  ∃ before c after, cells = before ++ c :: after ∧ c.cell.name = name ∧ c.cell.value = some v ∧
    ∀ d ∈ after, d.cell.name = name → d.cell.value = none

/-- A map of the names that have a value in the row to the last value they have there. -/
structure Flattens (r : WireRow) (m : FlatRow) : Prop where
  /-- No two names are the same, for none comes before itself. -/
  ascending : m.toList.Pairwise fun x y => Utf8.encode x.1 < Utf8.encode y.1
  names : ∀ name, (∃ v, (name, v) ∈ m.toList) ↔
    ∃ c ∈ r.primaryKey ++ r.attributes, c.cell.name = name ∧ c.cell.value ≠ none
  values : ∀ name v, (name, v) ∈ m.toList ↔ LastValue (r.primaryKey ++ r.attributes) name v

/-- The name with the value, if there is one. -/
def Cell.entry? (c : Cell) : Option (String × Value) := c.value.map fun v => (c.name, v)

theorem Cell.filterMap_entry?_put (es : List (String × Value)) :
    (es.map fun e => put e.1 e.2).filterMap entry? = es := by
  rw [List.filterMap_map]
  exact List.filterMap_some

namespace WireRow

variable {r : WireRow} {name : String} {v : Value}

theorem get?_flatten : r.flatten.get? name =
    (r.cells.filterMap fun c => if c.cell.name = name then c.cell.value else none).getLast? := by
  rw [flatten, Dictionary.get?_ofList, Dictionary.given, values, List.filterMap_filterMap]
  congr 2
  funext c
  cases c.cell.value <;> simp

theorem get?_flatten_eq_some_iff :
    r.flatten.get? name = some v ↔ LastValue r.cells name v := by
  rw [get?_flatten, List.getLast?_filterMap, List.findSome?_eq_some_iff]
  simp only [Option.ite_none_right_eq_some, ite_eq_right_iff]
  constructor
  · rintro ⟨after, c, before, split, ⟨named, value⟩, others⟩
    refine ⟨before.reverse, c, after.reverse, ?_, named, value, fun d hd => ?_⟩
    · simpa using List.reverse_eq_append_iff.mp split
    · exact others d (List.mem_reverse.mp hd)
  · rintro ⟨before, c, after, split, named, value, others⟩
    refine ⟨after.reverse, c, before.reverse, ?_, ⟨named, value⟩, fun d hd => ?_⟩
    · simp [split]
    · exact others d (List.mem_reverse.mp hd)

theorem get?_flatten_eq_none_iff : r.flatten.get? name = none ↔
    ∀ c ∈ r.cells, c.cell.name = name → c.cell.value = none := by
  rw [get?_flatten, List.getLast?_eq_none_iff, List.filterMap_eq_nil_iff]
  simp only [ite_eq_right_iff]

theorem flattens_flatten (r : WireRow) : Flattens r r.flatten where
  ascending := r.flatten.ascending
  names name := by
    simp only [← Dictionary.get?_eq_some_iff, ← Option.ne_none_iff_exists', ne_eq,
      get?_flatten_eq_none_iff, not_forall, exists_prop]
    rfl
  values name v := by
    rw [← Dictionary.get?_eq_some_iff]
    exact get?_flatten_eq_some_iff

/-- What the wire adds to the cells of a row does not count. -/
theorem values_eq (r : WireRow) :
    r.values = (r.row.primaryKey ++ r.row.attributes).filterMap Cell.entry? := by
  rw [values, cells, row, ← List.map_append, List.filterMap_map]
  rfl

end WireRow

namespace Buffer

theorem decodeWith_flatten {o : DecodeOptions} {b : Bytes} {rows : List WireRow}
    (read : (decodeRows o b).outcome = .ok rows) :
    (decodeWith o b).outcome = .ok (rows.map WireRow.flatten) := by
  rw [decodeWith, Traced.map, read]
  rfl

/-- A row that has been written and is read first is flattened as it was built. -/
theorem decodeFirst_encode {row : Row} {b : Bytes} (written : encode [row] = .ok b)
    (o : DecodeOptions) : ∃ r : WireRow, r.row = row ∧
      (decodeFirst o b).outcome = .ok (some r.flatten) := by
  obtain ⟨fs, _, content, run⟩ := exists_forms_of_encode (by simp) written o.verify
  obtain ⟨f, rfl, rfl⟩ := List.map_eq_singleton_iff.mp content
  exact ⟨f.wire, rfl, (decodeFirst_outcome.2.1 _).mpr ⟨f.wire, run, rfl⟩⟩

/-- Rows are read as maps of their names to the last values. A row built from two maps, whose
entries are taken in any order, is read as the first map with the entries of the second in place of
its own. -/
theorem decodeWith_flattens :
    (∀ o b rows, (decodeRows o b).outcome = .ok rows →
      ∃ maps, (decodeWith o b).outcome = .ok maps ∧ List.Forall₂ Flattens rows maps) ∧
    ∀ (p a : Dictionary Value) (ps vs : List (String × Value)) (o : DecodeOptions) (b : Bytes),
      ps.Perm p.toList → vs.Perm a.toList →
      encode [(Row.empty.putPrimaryKey ps).putAttributes vs] = .ok b →
      ∃ m, (decodeFirst o b).outcome = .ok (some m) ∧
        ∀ name, m.get? name = (a.get? name).or (p.get? name) := by
  refine ⟨fun o b rows read => ⟨_, decodeWith_flatten read, ?_⟩, ?_⟩
  · exact List.forall₂_map_right_iff.mpr (List.forall₂_same.mpr fun r _ => r.flattens_flatten)
  · intro p a ps vs o b of_p of_a written
    obtain ⟨r, content, first⟩ := decodeFirst_encode written o
    refine ⟨r.flatten, first, fun name => ?_⟩
    have entries : r.values = ps ++ vs := by
      rw [WireRow.values_eq, content, List.filterMap_append]
      exact congrArg₂ _ (Cell.filterMap_entry?_put ps) (Cell.filterMap_entry?_put vs)
    rw [WireRow.flatten, entries, Dictionary.get?_ofList_append,
      Dictionary.get?_ofList_of_perm of_p, Dictionary.get?_ofList_of_perm of_a]

theorem decodeWith_flattens_overridden_name :
    let p : Dictionary Value := .ofList [("a", .int 1), ("b", .int 2)]
    let a : Dictionary Value := .ofList [("b", .double ⟨0x8000000000000000⟩)]
    let row := (Row.empty.putPrimaryKey [("b", .int 2), ("a", .int 1)]).putAttributes a.toList
    let mixed := row.addAttributes [.deleteAll "a", .deleteOne "c" 7, .put "a" .null]
    (∃ b, encode [row] = .ok b ∧ ∃ m, (decodeFirst {} b).outcome = .ok (some m) ∧
      ∀ name, m.get? name = (a.get? name).or (p.get? name)) ∧
    ∃ b rows maps, encode [mixed] = .ok b ∧ (decodeRows {} b).outcome = .ok rows ∧
      (decodeWith {} b).outcome = .ok maps ∧ List.Forall₂ Flattens rows maps := by
  intro p a row mixed
  obtain ⟨flattens, overrides⟩ := decodeWith_flattens
  obtain ⟨b, written⟩ : ∃ b, encode [row] = .ok b := ⟨_, rfl⟩
  obtain ⟨b', written'⟩ : ∃ b, encode [mixed] = .ok b := ⟨_, rfl⟩
  have order : List.Perm [("b", .int 2), ("a", .int 1)] p.toList := .swap _ _ []
  obtain ⟨rows, read, _⟩ := decodeRows_encode (List.cons_ne_nil mixed []) written' true
  obtain ⟨maps, flattened, same⟩ := flattens _ _ rows read
  exact ⟨⟨b, written, overrides p a _ _ {} b order (.refl _) written⟩, b', rows, maps, written',
    read, flattened, same⟩

end Buffer

end TableWire
