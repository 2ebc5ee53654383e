import TableWire.Proofs.Scan.Blame
import TableWire.Row.Wire
/-!
The errors of values, cells and rows, which are true of the buffer that these are read from, also
where a value is read in a field of its own.
-/

namespace TableWire

open Scan

variable {limit : Option Nat} {b : Bytes}

namespace Value

theorem honest_scanText : Honest limit b scanText := by
  intro c inside
  refine (honest_sized c inside).located_bind fun bytes d run inside' => ?_
  obtain ⟨size, span⟩ := sized_eq_ok.mp run
  dsimp only
  cases text : Utf8.decode? bytes with
  | some s => exact inside'
  | none =>
    refine honestAt_fail ?_ d
    refine ⟨bytes, size, inside.stands span, fun s same => ?_⟩
    rw [Utf8.decode?_eq_some_iff.mpr same] at text
    cases text

theorem honest_scanPayload (k : Kind) : Honest limit b (scanPayload k) := by
  cases k with
  | int => exact honest_word64.map _
  | double => exact honest_word64.map _
  | bool => exact honest_byte.map _
  | str => exact honest_scanText.map _
  | blob => exact honest_sized.map _
  | null => exact honest_pure _
  | infMin => exact honest_pure _
  | infMax => exact honest_pure _
  | autoIncrement => exact honest_pure _

/-- The code at `offset` has been read before. -/
theorem honest_scanBehind {code : UInt8} {offset : Nat} (stands : b[offset]? = some code) :
    Honest limit b (scanBehind code offset) := by
  unfold scanBehind
  cases known : Kind.ofCode? code with
  | some k => exact honest_scanPayload k
  | none =>
    refine fun c _ => honestAt_fail ?_ c
    refine ⟨stands, fun k same => ?_⟩
    rw [Kind.ofCode?_eq_some_iff.mpr same] at known
    cases known

theorem honest_scan : Honest limit b scan := by
  intro c inside
  refine (honest_byte c inside).located_bind fun code d run inside' => ?_
  exact honest_scanBehind (inside.byte (byte_eq_ok.mp run)) d inside'

end Value

/-- A mismatch is told about a checksum that has been read behind its tag. -/
theorem honest_matchStored (check : Bool) (scope : Scope) (computed : UInt8)
    {stored : Option (Nat × UInt8)}
    (stands : ∀ x ∈ stored, StandsBehind b scope.tag.code x.1 x.2) :
    Honest limit b (matchStored check scope computed stored) := by
  cases stored with
  | none => exact honest_pure ()
  | some x =>
    simp only [matchStored]
    split
    · next differs =>
      have blamed : (BufferError.checksumMismatch scope x.2 computed x.1).Blames limit b :=
        ⟨stands x rfl, differs.2⟩
      exact fun c _ => honestAt_fail blamed c
    · exact honest_pure ()

namespace WireCell

theorem honest_scanName {c : Cursor} (inside : c.InBehind Tag.cell.code b) :
    HonestAt limit b scanName c := by
  refine HonestAt.bind (honest_position c inside.toIn) fun offset d run _ => ?_
  obtain ⟨rfl, rfl⟩ := position_eq_ok.mp run
  refine (honest_accept _ d inside.toIn).bind fun found e run inside' => ?_
  cases found with
  | true => exact Value.honest_scanText e inside'
  | false =>
    obtain ⟨rfl, avoids⟩ := accept_eq_false.mp run
    cases rest : e.rest with
    | nil => simp [rest] at avoids
    | cons x xs =>
      rw [rest, avoids_cons] at avoids
      refine honestAt_fail ?_ e
      exact ⟨x, inside.standsBehind (inside'.head rest), avoids⟩

/-- The value is read in its field; what is left of the field is blamed at its place. -/
theorem honest_scanValue : Honest limit b scanValue := by
  refine honest_word32.bind fun size c inside => ?_
  refine (honest_window _ c inside).bind fun field d run inside' => ?_
  obtain ⟨span, _, same⟩ := window_eq_ok.mp run
  have part : field.In b := inside.window span same
  refine (Value.honest_scan.within part d inside').bind fun x e run inside'' => ?_
  obtain ⟨value, left⟩ := x
  have rest : left.In b := part.reaches (Value.forward_scan.ok (within_eq_ok.mp run).1)
  dsimp only
  split
  · exact inside''
  · next x xs tail => exact honestAt_fail (e := .unexpectedTag x left.offset) (rest.head tail) e

theorem honest_scanOperation {c : Cursor} (inside : c.InBehind Tag.operation.code b) :
    HonestAt limit b scanOperation c := by
  refine (honest_byte c inside.toIn).located_bind fun code d run inside' => ?_
  have stands := inside.standsBehind (inside.byte (byte_eq_ok.mp run))
  dsimp only
  cases known : Operation.ofCode? code with
  | some o => exact inside'
  | none =>
    refine honestAt_fail ?_ d
    refine ⟨stands, fun o same => ?_⟩
    rw [Operation.ofCode?_eq_some_iff.mpr same] at known
    cases known

theorem honest_scanTimestamp : Honest limit b scanTimestamp := honest_word64.map _

theorem honest_scanParts {c : Cursor} (inside : c.InBehind Tag.cell.code b) :
    HonestAt limit b scanParts c := by
  refine (honest_scanName inside).bind fun name c₁ _ inside₁ => ?_
  refine (honest_scanValue.optional _ c₁ inside₁).bind fun value c₂ _ inside₂ => ?_
  refine (Honest.optional_behind (fun _ => honest_scanOperation) c₂ inside₂).bind
    fun operation c₃ _ inside₃ => ?_
  refine (honest_scanTimestamp.optional _ c₃ inside₃).bind fun timestamp c₄ _ inside₄ => ?_
  exact (honest_byte.located.optional _ c₄ inside₄).bind fun stored c₅ _ => id

theorem standsBehind_of_scanParts {c d : Cursor} {cell : WireCell}
    {stored : Option (Nat × UInt8)} (inside : c.In b) (run : scanParts c = .ok (cell, stored) d) :
    ∀ x ∈ stored, StandsBehind b Tag.cellChecksum.code x.1 x.2 := by
  obtain ⟨name, c₁, run₁, run⟩ := bind_eq_ok.mp run
  obtain ⟨value, c₂, run₂, run⟩ := bind_eq_ok.mp run
  obtain ⟨operation, c₃, run₃, run⟩ := bind_eq_ok.mp run
  obtain ⟨timestamp, c₄, run₄, run⟩ := bind_eq_ok.mp run
  obtain ⟨stored, c₅, run₅, run⟩ := bind_eq_ok.mp run
  cases run
  have inside₁ := inside.reaches (forward_scanName.ok run₁)
  have inside₂ := inside₁.reaches ((forward_scanValue.optional _).ok run₂)
  have inside₃ := inside₂.reaches ((forward_scanOperation.optional _).ok run₃)
  have inside₄ := inside₃.reaches ((forward_scanTimestamp.optional _).ok run₄)
  exact standsBehind_of_optional inside₄ run₅

theorem honest_scan (check : Bool) {c : Cursor} (inside : c.InBehind Tag.cell.code b) :
    HonestAt limit b (scan check) c := by
  rw [scan_eq]
  refine (honest_scanParts inside).bind fun x d run inside' => ?_
  obtain ⟨cell, stored⟩ := x
  have stands := standsBehind_of_scanParts inside.toIn run
  refine (honest_matchStored check .cell cell.computed stands d inside').bind fun _ e _ => ?_
  exact id

end WireCell

namespace WireRow

theorem honest_scanGroup (check : Bool) (g : Group) : Honest limit b (scanGroup check g) := by
  rw [scanGroup_eq]
  refine (honest_accept _).bind fun found => ?_
  cases found
  · exact honest_pure []
  · exact Honest.items _ fun _ => WireCell.honest_scan check

theorem honest_scanParts (check : Bool) : Honest limit b (scanParts check) := by
  rw [scanParts_eq]
  refine (honest_scanGroup _ _).bind fun primaryKey => ?_
  refine (honest_scanGroup _ _).bind fun attributes => ?_
  refine (honest_accept _).bind fun deleted => ?_
  exact (honest_byte.located.optional _).bind fun stored => honest_pure _

theorem standsBehind_of_scanParts {check : Bool} {c d : Cursor} {row : WireRow}
    {stored : Option (Nat × UInt8)} (inside : c.In b)
    (run : scanParts check c = .ok (row, stored) d) :
    ∀ x ∈ stored, StandsBehind b Tag.rowChecksum.code x.1 x.2 := by
  rw [scanParts_eq] at run
  obtain ⟨primaryKey, c₁, run₁, run⟩ := bind_eq_ok.mp run
  obtain ⟨attributes, c₂, run₂, run⟩ := bind_eq_ok.mp run
  obtain ⟨deleted, c₃, run₃, run⟩ := bind_eq_ok.mp run
  obtain ⟨stored, c₄, run₄, run⟩ := bind_eq_ok.mp run
  cases run
  have inside₁ := inside.reaches ((forward_scanGroup _ _).ok run₁)
  have inside₂ := inside₁.reaches ((forward_scanGroup _ _).ok run₂)
  exact standsBehind_of_optional (inside₂.reaches ((forward_accept _).ok run₃)) run₄

/-- Without progress, the byte at the start is the one that is blamed. -/
theorem honest_demandProgress (start : Nat) : Honest limit b (demandProgress start) := by
  intro c inside
  refine HonestAt.bind (honest_position c inside) fun here d run _ => ?_
  obtain ⟨rfl, rfl⟩ := position_eq_ok.mp run
  split
  · next same =>
    subst same
    refine (honest_peek d inside).bind fun x e peeked _ => ?_
    cases rest : d.rest with
    | nil => simp [peek, rest, short] at peeked
    | cons y ys =>
      simp only [peek, rest] at peeked
      cases peeked
      exact honestAt_fail (e := .unexpectedTag x d.offset) (inside.head rest) d
  · exact honest_pure () d inside

theorem honest_scan (check : Bool) : Honest limit b (scan check) := by
  rw [scan_eq]
  refine honest_position.bind fun start c inside => ?_
  refine (honest_scanParts check c inside).bind fun x d run inside' => ?_
  obtain ⟨row, stored⟩ := x
  refine (honest_demandProgress start d inside').bind fun _ e _ inside'' => ?_
  have stands := standsBehind_of_scanParts inside run
  refine (honest_matchStored check .row row.computed stands e inside'').bind fun _ e' _ => ?_
  exact id

end WireRow

end TableWire
