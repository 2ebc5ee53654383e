import TableWire.Proofs.Row.CellForm
/-!
The written forms of rows. Every part of a row may be left out, so a row ends where a tag follows
that could not come later in the same row: `Row.Form.before_iff`.
-/

namespace TableWire

namespace Row

structure Form : Type where
  /-- The cells behind the tag of the group, if it is there. -/
  primaryKey : Option (List Cell.Form)
  attributes : Option (List Cell.Form)
  deleted : Bool
  /-- The checksum byte. -/
  stored : Option UInt8

namespace Form

def groupPart (g : Group) (cells : Option (List Cell.Form)) : Bytes :=
  tagged g.tag.code Cell.Form.many.bytes cells

def deletedPart (f : Form) : Bytes := if f.deleted then [Tag.deleted.code] else []

def storedPart (f : Form) : Bytes := tagged Tag.rowChecksum.code (fun k => [k]) f.stored

def bytes (f : Form) : Bytes :=
  groupPart .primaryKey f.primaryKey ++ (groupPart .attributes f.attributes ++
    (f.deletedPart ++ f.storedPart))

def cells (f : Form) : List Cell.Form := f.primaryKey.getD [] ++ f.attributes.getD []

def wire (f : Form) : WireRow where
  primaryKey := (f.primaryKey.getD []).map (·.wire)
  attributes := (f.attributes.getD []).map (·.wire)
  deleted := f.deleted
  stored := f.stored

/-- The tags of the parts that are there, in their order. -/
def tags (f : Form) : List Tag :=
  (if f.primaryKey.isSome then [.primaryKey] else []) ++
    ((if f.attributes.isSome then [.attributes] else []) ++
      ((if f.deleted then [.deleted] else []) ++ if f.stored.isSome then [.rowChecksum] else []))

/-- Every checksum that is there is the one the content calls for. -/
structure Verified (f : Form) : Prop where
  cells : ∀ c ∈ f.cells, c.Verified
  stored : ∀ k ∈ f.stored, k = f.wire.computed

def groupLayout (g : Group) : Layout (Option (List Cell.Form)) (Option (List WireCell)) :=
  Cell.Form.many.optional g.tag.code

/-- No part that is left out seems to follow. -/
structure Before (f : Form) (rest : Bytes) : Prop where
  primaryKey : (groupLayout .primaryKey).Before f.primaryKey
    (groupPart .attributes f.attributes ++ (f.deletedPart ++ (f.storedPart ++ rest)))
  attributes : (groupLayout .attributes).Before f.attributes
    (f.deletedPart ++ (f.storedPart ++ rest))
  deleted : f.deleted = false → Avoids Tag.deleted.code (f.storedPart ++ rest)
  stored : f.stored = none → Avoids Tag.rowChecksum.code rest

/-- The tags of the parts of a row. -/
def partTags : List Tag := [.primaryKey, .attributes, .deleted, .rowChecksum]

theorem mem_partTags {f : Form} {t : Tag} (h : t ∈ f.tags) : t ∈ partTags := by
  obtain ⟨pk, attr, del, k⟩ := f
  cases pk <;> cases attr <;> cases del <;> cases k <;> simp_all [tags, partTags] <;> grind

theorem bytes_of_head {f : Form} {t : Tag} (h : f.tags.head? = some t) :
    ∃ bs, f.bytes = t.code :: bs := by
  obtain ⟨pk, attr, del, k⟩ := f
  cases pk <;> cases attr <;> cases del <;> cases k <;>
    simp_all [tags, bytes, groupPart, tagged, deletedPart, storedPart, Group.tag, eq_comm]

theorem bytes_eq_nil_iff {f : Form} : f.bytes = [] ↔ f.tags = [] := by
  obtain ⟨pk, attr, del, k⟩ := f
  cases pk <;> cases attr <;> cases del <;> cases k <;>
    simp [tags, bytes, groupPart, tagged, deletedPart, storedPart]

/-- Some part of a row comes next. -/
def Starts (rest : Bytes) : Prop := ∃ t ∈ partTags, ∃ bs, rest = t.code :: bs

theorem Starts.avoids {rest : Bytes} (h : Starts rest) {t : Tag} (ht : t ∉ partTags) :
    Avoids t.code rest := by
  obtain ⟨s, hs, bs, rfl⟩ := h
  intro same
  exact ht (Tag.code_injective same ▸ hs)

theorem Starts.group {rest : Bytes} (h : Starts rest) (g : Group)
    (cells : Option (List Cell.Form)) : Starts (groupPart g cells ++ rest) := by
  cases cells with
  | none => exact h
  | some fs => exact ⟨g.tag, by cases g <;> decide, _, rfl⟩

theorem Starts.deleted {rest : Bytes} (h : Starts rest) (f : Form) :
    Starts (f.deletedPart ++ rest) := by
  cases deleted : f.deleted with
  | false => simpa [deletedPart, deleted] using h
  | true => exact ⟨.deleted, by decide, rest, by simp [deletedPart, deleted]⟩

theorem Starts.stored {rest : Bytes} {f : Form} (h : f.stored = none → Starts rest) :
    Starts (f.storedPart ++ rest) := by
  cases stored : f.stored with
  | none => simpa [storedPart, tagged, stored] using h stored
  | some k => exact ⟨.rowChecksum, by decide, k :: rest, by simp [storedPart, tagged, stored]⟩

theorem group_before_iff {g : Group} {cells : Option (List Cell.Form)} {rest : Bytes}
    (h : Starts rest) :
    (groupLayout g).Before cells rest ↔ (cells = none → Avoids g.tag.code rest) := by
  cases cells with
  | none => exact ⟨fun avoids _ => avoids, fun avoids => avoids rfl⟩
  | some fs =>
    refine ⟨fun _ => nofun, fun _ => ?_⟩
    exact Cell.Form.many_before_of_avoids (h.avoids (by decide)) fun t ht =>
      h.avoids fun ht' => by revert t; decide

theorem before_iff_avoids {f : Form} {rest : Bytes} (h : f.stored = none → Starts rest) :
    f.Before rest ↔
      (f.primaryKey = none → Avoids Tag.primaryKey.code
        (groupPart .attributes f.attributes ++ (f.deletedPart ++ (f.storedPart ++ rest)))) ∧
      (f.attributes = none → Avoids Tag.attributes.code
        (f.deletedPart ++ (f.storedPart ++ rest))) ∧
      (f.deleted = false → Avoids Tag.deleted.code (f.storedPart ++ rest)) ∧
      (f.stored = none → Avoids Tag.rowChecksum.code rest) := by
  have behind := (Starts.stored h).deleted f
  constructor
  · intro ⟨pk, attr, del, stored⟩
    exact ⟨(group_before_iff (behind.group _ _)).mp pk, (group_before_iff behind).mp attr, del,
      stored⟩
  · intro ⟨pk, attr, del, stored⟩
    exact ⟨(group_before_iff (behind.group _ _)).mpr pk, (group_before_iff behind).mpr attr, del,
      stored⟩

/-- A row with a checksum ends with it, and any other row where the next tag is not one that could
stand behind its last part. -/
theorem before_iff {f : Form} (some_part : f.tags ≠ []) {t : Tag} (ht : t ∈ partTags) {bs : Bytes} :
    f.Before (t.code :: bs) ↔ ∀ s ∈ f.tags.getLast?, t.code ≤ s.code := by
  rw [before_iff_avoids fun _ => ⟨t, ht, bs, rfl⟩]
  obtain ⟨pk, attr, del, k⟩ := f
  simp only [partTags, List.mem_cons, List.not_mem_nil, or_false] at ht
  cases pk <;> cases attr <;> cases del <;> cases k <;>
    simp_all [tags, groupPart, tagged, deletedPart, storedPart, Group.tag] <;>
    rcases ht with rfl | rfl | rfl | rfl <;> decide

/-- A row with a checksum ends with it, whatever follows. -/
theorem before_of_stored {f : Form} (h : f.stored.isSome) (rest : Bytes) : f.Before rest := by
  obtain ⟨pk, attr, del, k⟩ := f
  obtain ⟨k, rfl⟩ := Option.isSome_iff_exists.mp h
  rw [before_iff_avoids (by simp)]
  cases pk <;> cases attr <;> cases del <;>
    simp [groupPart, tagged, deletedPart, storedPart, Group.tag] <;> decide

/-- At the end of the input a row needs its checksum. -/
theorem before_nil_iff {f : Form} : f.Before [] ↔ f.stored.isSome := by
  refine ⟨fun h => ?_, fun h => before_of_stored h []⟩
  cases stored : f.stored with
  | none => exact absurd (h.stored stored) (avoids_nil _)
  | some k => rfl

end Form

end Row

namespace Row.Form

theorem group_unambiguous (g : Group) : (groupLayout g).Unambiguous :=
  ((Cell.Form.layout_unambiguous false).many Tag.cell.code).optional g.tag.code

def layout (check : Bool) : Layout Form WireRow where
  bytes := Form.bytes
  content := Form.wire
  Before f rest := f.tags ≠ [] ∧ f.Before rest ∧ (check → f.Verified)

theorem layout_unambiguous (check : Bool) : (layout check).Unambiguous := by
  rintro ⟨pk, attr, del, k⟩ ⟨pk', attr', del', k'⟩ rest rest' same ⟨_, hf, _⟩ ⟨_, hg, _⟩
  simp only [layout, bytes, List.append_assoc] at same
  obtain ⟨rfl, behind⟩ := group_unambiguous .primaryKey same hf.primaryKey hg.primaryKey
  obtain ⟨rfl, behind⟩ := group_unambiguous .attributes behind hf.attributes hg.attributes
  obtain ⟨rfl, behind⟩ := Layout.flag_unambiguous behind hf.deleted hg.deleted
  obtain ⟨rfl, rfl⟩ := Layout.byte_unambiguous.optional Tag.rowChecksum.code behind
    (Layout.optional_plain_before_iff.mpr hf.stored)
    (Layout.optional_plain_before_iff.mpr hg.stored)
  exact ⟨rfl, rfl⟩

theorem unambiguous {f g : Form} {rest rest' : Bytes} (same : f.bytes ++ rest = g.bytes ++ rest')
    (f_part : f.tags ≠ []) (before : f.Before rest) (g_part : g.tags ≠ [])
    (before' : g.Before rest') : f = g ∧ rest = rest' :=
  layout_unambiguous false same ⟨f_part, before, nofun⟩ ⟨g_part, before', nofun⟩

end Row.Form

namespace WireRow

theorem scanGroup_eq_ok {check : Bool} {g : Group} {c d : Cursor} {ws : List WireCell} :
    scanGroup check g c = .ok ws d ↔
      ∃ cells, c.Spans (Row.Form.groupPart g cells) d ∧ (cells.getD []).map (·.wire) = ws ∧
        (Row.Form.groupLayout g).Before cells d.rest ∧
        (check → ∀ f ∈ cells.getD [], f.Verified) := by
  simp only [scanGroup_eq, Scan.bind_eq_ok, Bool.exists_bool]
  constructor
  · rintro (⟨e, missing, run⟩ | ⟨e, found, run⟩)
    · obtain ⟨rfl, avoids⟩ := Scan.accept_eq_false.mp missing
      obtain ⟨rfl, rfl⟩ := Scan.pure_eq_ok.mp run
      exact ⟨none, Cursor.spans_nil.mpr rfl, rfl, avoids, by simp⟩
    · obtain ⟨fs, span, rfl, before⟩ := ((WireCell.scan_reads check).items _ _ e ws d).mp run
      obtain ⟨before, verified⟩ := Cell.Form.manyBefore_iff.mp before
      exact ⟨some fs, (Scan.accept_eq_true.mp found).trans span, rfl, before, verified⟩
  · rintro ⟨cells, span, rfl, before, verified⟩
    cases cells with
    | none =>
      obtain rfl := Cursor.spans_nil.mp span
      exact .inl ⟨d, Scan.accept_eq_false.mpr ⟨rfl, before⟩, Scan.pure_eq_ok.mpr ⟨rfl, rfl⟩⟩
    | some fs =>
      obtain ⟨e, found, span⟩ := Cursor.spans_cons.mp span
      refine .inr ⟨e, Scan.accept_eq_true.mpr found, ?_⟩
      exact ((WireCell.scan_reads check).items _ _ e _ d).mpr
        ⟨fs, span, rfl, Cell.Form.manyBefore_iff.mpr ⟨before, verified⟩⟩

theorem demandProgress_eq_ok {start : Nat} {c d : Cursor} {u : Unit} :
    demandProgress start c = .ok u d ↔ d = c ∧ c.offset ≠ start := by
  constructor
  · exact offset_ne_of_demandProgress
  · rintro ⟨rfl, moved⟩
    simp [demandProgress, Scan.bind_eq_ok, Scan.position_eq_ok, moved, Scan.pure_eq_ok]

theorem scanParts_eq_ok {check : Bool} {c d : Cursor} {r : WireRow}
    {stored : Option (Nat × UInt8)} :
    scanParts check c = .ok (r, stored) d ↔
      ∃ f : Row.Form, c.Spans f.bytes d ∧ f.wire = r ∧
        stored = f.stored.map (fun k => (d.offset - 1, k)) ∧ f.Before d.rest ∧
        (check → ∀ cell ∈ f.cells, cell.Verified) := by
  simp only [scanParts_eq, Scan.bind_eq_ok, scanGroup_eq_ok, Scan.accept_eq_ok,
    Scan.optional_located_byte_eq_ok, Scan.pure_eq_ok, Prod.mk.injEq]
  constructor
  · rintro ⟨_, c₁, ⟨pk, span₁, rfl, before₁, verified₁⟩,
      _, c₂, ⟨attr, span₂, rfl, before₂, verified₂⟩, del, c₃, ⟨span₃, before₃⟩,
      _, _, ⟨k, span₄, rfl, before₄⟩, ⟨rfl, rfl⟩, rfl⟩
    refine ⟨⟨pk, attr, del, k⟩, span₁.trans (span₂.trans (span₃.trans span₄)), ?_,
      Scan.place_of_tagged span₄, ⟨?_, ?_, ?_, before₄⟩, fun h => ?_⟩
    · simp [Row.Form.wire, Function.comp_def]
    · rwa [span₂.rest, span₃.rest, span₄.rest] at before₁
    · rwa [span₃.rest, span₄.rest] at before₂
    · intro h
      have avoids := before₃ h
      rwa [span₄.rest] at avoids
    · exact List.forall_mem_append.mpr ⟨verified₁ h, verified₂ h⟩
  · rintro ⟨f, span, rfl, rfl, before, verified⟩
    obtain ⟨c₁, span₁, span⟩ := Cursor.spans_append.mp span
    obtain ⟨c₂, span₂, span⟩ := Cursor.spans_append.mp span
    obtain ⟨c₃, span₃, span₄⟩ := Cursor.spans_append.mp span
    have pk (h : check) := (List.forall_mem_append.mp (verified h)).1
    have attr (h : check) := (List.forall_mem_append.mp (verified h)).2
    refine ⟨_, c₁, ⟨f.primaryKey, span₁, rfl, ?_, pk⟩, _, c₂, ⟨f.attributes, span₂, rfl, ?_, attr⟩,
      f.deleted, c₃, ⟨span₃, fun h => ?_⟩, _, d, ⟨f.stored, span₄, rfl, before.stored⟩,
      ⟨?_, Scan.place_of_tagged span₄⟩, rfl⟩
    · rw [span₂.rest, span₃.rest, span₄.rest]
      exact before.primaryKey
    · rw [span₃.rest, span₄.rest]
      exact before.attributes
    · rw [span₄.rest]
      exact before.deleted h
    · simp [Row.Form.wire, Function.comp_def]

theorem scan_reads (check : Bool) : (scan check).Reads (Row.Form.layout check) := by
  intro c r d
  simp only [scan_eq, Scan.bind_eq_ok, Prod.exists, Scan.position_eq_ok, scanParts_eq_ok,
    demandProgress_eq_ok, matchStored_eq_ok, Scan.pure_eq_ok]
  have moved {f : Row.Form} {e : Cursor} (span : c.Spans f.bytes e) :
      e.offset ≠ c.offset ↔ f.tags ≠ [] := by
    rw [span.offset, ne_eq, ne_eq, ← Row.Form.bytes_eq_nil_iff, ← List.length_eq_zero_iff]
    omega
  constructor
  · rintro ⟨_, _, ⟨rfl, rfl⟩, _, _, e, ⟨f, span, rfl, rfl, before, cells⟩, _, _, ⟨rfl, progress⟩,
      _, _, ⟨rfl, stored⟩, rfl, rfl⟩
    refine ⟨f, span, rfl, (moved span).mp progress, before, fun h => ⟨cells h, ?_⟩⟩
    simpa [Function.comp_def] using stored h
  · rintro ⟨f, span, rfl, some_part, before, verified⟩
    refine ⟨_, c, ⟨rfl, rfl⟩, _, _, d, ⟨f, span, rfl, rfl, before, fun h => (verified h).cells⟩,
      (), d, ⟨rfl, (moved span).mpr some_part⟩, (), d, ⟨rfl, fun h => ?_⟩, rfl, rfl⟩
    simpa [Function.comp_def] using (verified h).stored

end WireRow

end TableWire
