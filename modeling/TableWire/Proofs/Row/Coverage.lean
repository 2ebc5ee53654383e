import TableWire.Proofs.Row.Canonical
import TableWire.Proofs.Row.Frame
/-!
What the checksums of a row cover: the fields of its cells, the delete marker, and the checksums of
cells. Where a covered byte or a checksum has been altered, nothing can be read that has all its
checksums right.
-/

namespace TableWire

namespace Cell.Frame

/-- A field that the checksum covers, or the checksum, with what stands before and behind it. Tags
and the sizes of fields are not covered. -/
inductive Covered (f : Frame) : Bytes → Bytes → Bytes → Prop
  | name : f.Covered (Tag.name.code :: word32 f.name.length) f.name
      (f.valuePart ++ (f.operationPart ++ (f.timestampPart ++ f.storedPart)))
  | value {v : Bytes} (h : f.value = some v) :
    f.Covered (f.namePart ++ Tag.value.code :: word32 v.length) v
      (f.operationPart ++ (f.timestampPart ++ f.storedPart))
  | operation {o : UInt8} (h : f.operation = some o) :
    f.Covered (f.namePart ++ (f.valuePart ++ [Tag.operation.code])) [o]
      (f.timestampPart ++ f.storedPart)
  | timestamp {t : Bytes} (h : f.timestamp = some t) :
    f.Covered (f.namePart ++ (f.valuePart ++ (f.operationPart ++ [Tag.timestamp.code]))) t
      f.storedPart
  | stored {k : UInt8} (h : f.stored = some k) :
    f.Covered (f.namePart ++ (f.valuePart ++ (f.operationPart ++ (f.timestampPart ++
      [Tag.cellChecksum.code])))) [k] []

/-- A frame with a checksum, which is not the one that the content calls for. -/
structure Wrong (f : Frame) : Prop where
  sized : f.Sized
  some_checksum : f.stored.isSome
  unverified : ¬ f.Verified

namespace Covered

variable {f : Frame} {before part after part' : Bytes}

theorem whole (h : f.Covered before part after) : before ++ (part ++ after) = f.bytes := by
  cases h with
  | name => simp [bytes, namePart, sizedBytes]
  | value h => simp [bytes, valuePart, sizedBytes, tagged, h]
  | operation h => simp [bytes, operationPart, tagged, h]
  | timestamp h => simp [bytes, timestampPart, tagged, h]
  | stored h => simp [bytes, storedPart, tagged, h]

/-- Altered bytes of a frame are those of another one, whose checksum is wrong. -/
theorem exists_altered (h : f.Covered before part after) (sized : f.Sized)
    (stored : f.stored = some f.computed) (altered : Altered part part') :
    ∃ g : Frame, g.bytes = before ++ (part' ++ after) ∧ g.Wrong := by
  have length := altered.length_eq
  have some_checksum : f.stored.isSome := by simp [stored]
  cases h with
  | name =>
    refine ⟨{ f with name := part' }, ?_, ?_, some_checksum, not_verified_of_altered stored ?_⟩
    · simp [bytes, namePart, valuePart, operationPart, timestampPart, storedPart, sizedBytes,
        length]
    · exact ⟨length ▸ sized.name, sized.value, sized.timestamp⟩
    · exact ((altered.append_right _).append_right _).append_right _
  | value h =>
    refine ⟨{ f with value := some part' }, ?_, ?_, some_checksum,
      not_verified_of_altered stored ?_⟩
    · simp [bytes, namePart, valuePart, operationPart, timestampPart, storedPart, sizedBytes,
        tagged, length]
    · exact ⟨sized.name, by simpa [length] using sized.value _ h, sized.timestamp⟩
    · simpa [covered, h] using (altered.append_right _).append_left f.name
  | operation h =>
    obtain ⟨o', ne, rfl⟩ := altered.of_singleton
    refine ⟨{ f with operation := some o' }, ?_, ⟨sized.name, sized.value, sized.timestamp⟩,
      some_checksum, not_verified_of_altered stored ?_⟩
    · simp [bytes, namePart, valuePart, operationPart, timestampPart, storedPart, tagged]
    · simpa [covered, h] using
        altered.append_left (f.name ++ f.value.getD [] ++ f.timestamp.getD [])
  | timestamp h =>
    refine ⟨{ f with timestamp := some part' }, ?_, ?_, some_checksum,
      not_verified_of_altered stored ?_⟩
    · simp [bytes, namePart, valuePart, operationPart, timestampPart, storedPart, tagged]
    · exact ⟨sized.name, sized.value, by simpa [length] using sized.timestamp _ h⟩
    · simpa [covered, h] using (altered.append_right _).append_left (f.name ++ f.value.getD [])
  | stored h =>
    obtain ⟨k', ne, rfl⟩ := altered.of_singleton
    refine ⟨{ f with stored := some k' }, ?_, ⟨sized.name, sized.value, sized.timestamp⟩, rfl,
      fun verified => ne ?_⟩
    · simp [bytes, namePart, valuePart, operationPart, timestampPart, storedPart, tagged]
    · exact (Option.some.inj (h.symm.trans stored)).trans (verified k' rfl).symm

end Covered

end Cell.Frame

/-- Cells that are read where a wrong frame stands, behind cells that end with their checksums, do
not have all their checksums right. -/
theorem Cell.Form.exists_not_verified {fs cs : List Form} {g : Frame} {rest more : Bytes}
    (stored : ∀ c ∈ cs, c.stored.isSome) (wrong : g.Wrong) (before : many.Before fs rest)
    (same : many.bytes fs ++ rest = many.bytes cs ++ Tag.cell.code :: (g.bytes ++ more)) :
    ∃ f ∈ fs, ¬ f.Verified := by
  induction cs generalizing fs with
  | nil =>
    cases fs with
    | nil =>
      cases (show rest = Tag.cell.code :: (g.bytes ++ more) from same)
      exact absurd rfl before
    | cons f fs =>
      -- what was read is the wrong frame itself, although its fields now have a meaning
      have behind : f.frame.bytes ++ (many.bytes fs ++ rest) = g.bytes ++ more := by
        rw [bytes_frame, ← List.append_assoc]
        exact (List.cons.inj same).2
      obtain ⟨rfl, _⟩ := Frame.unambiguous behind (sized_frame f) wrong.sized
        (before_frame.mpr before.1.1) (Frame.before_of_stored wrong.some_checksum more)
      exact ⟨f, by simp, verified_frame.not.mp wrong.unverified⟩
  | cons c cs ih =>
    obtain ⟨c_stored, stored⟩ := List.forall_mem_cons.mp stored
    cases fs with
    | nil =>
      cases (show rest = Tag.cell.code :: (c.bytes ++ many.bytes cs ++ _) from same)
      exact absurd rfl before
    | cons f fs =>
      have behind : f.bytes ++ (many.bytes fs ++ rest) =
          c.bytes ++ (many.bytes cs ++ Tag.cell.code :: (g.bytes ++ more)) := by
        rw [← List.append_assoc, ← List.append_assoc]
        exact (List.cons.inj same).2
      obtain ⟨_, behind⟩ := unambiguous behind before.1.1 (before_of_stored c_stored _)
      obtain ⟨f', mem, unverified⟩ := ih stored before.2 behind
      exact ⟨f', List.mem_cons_of_mem f mem, unverified⟩

namespace Row.Form

/-- A part of a row that its checksums cover, or one of them, with what stands before and behind
it. -/
inductive Covered (f : Form) : Bytes → Bytes → Bytes → Prop
  | primaryKey {cs ds : List Cell.Form} {c : Cell.Form} {before part after : Bytes}
    (cells : f.primaryKey = some (cs ++ c :: ds)) (h : c.frame.Covered before part after) :
    f.Covered (Tag.primaryKey.code :: (Cell.Form.many.bytes cs ++ Tag.cell.code :: before)) part
      (after ++ (Cell.Form.many.bytes ds ++ (groupPart .attributes f.attributes ++
        (f.deletedPart ++ f.storedPart))))
  | attributes {cs ds : List Cell.Form} {c : Cell.Form} {before part after : Bytes}
    (cells : f.attributes = some (cs ++ c :: ds)) (h : c.frame.Covered before part after) :
    f.Covered (groupPart .primaryKey f.primaryKey ++
        Tag.attributes.code :: (Cell.Form.many.bytes cs ++ Tag.cell.code :: before)) part
      (after ++ (Cell.Form.many.bytes ds ++ (f.deletedPart ++ f.storedPart)))
  | stored {k : UInt8} (h : f.stored = some k) :
    f.Covered (groupPart .primaryKey f.primaryKey ++ (groupPart .attributes f.attributes ++
      (f.deletedPart ++ [Tag.rowChecksum.code]))) [k] []

/-- The row with the delete marker put in front of its checksum, or taken out there. -/
def flip (f : Form) : Form := { f with deleted := !f.deleted }

theorem groupPart_some {g : Group} {cs ds : List Cell.Form} {c : Cell.Form} :
    groupPart g (some (cs ++ c :: ds)) = g.tag.code :: (Cell.Form.many.bytes cs ++
      Tag.cell.code :: (c.bytes ++ Cell.Form.many.bytes ds)) := by
  simp [groupPart, tagged, Cell.Form.many, Layout.many, Layout.manyBytes, Cell.Form.layout]

variable {f g : Form} {before part after part' rest rest' : Bytes}

theorem Covered.whole (h : f.Covered before part after) :
    before ++ (part ++ after) = f.bytes := by
  cases h with
  | primaryKey cells h =>
    rw [bytes, cells, groupPart_some, ← Cell.Form.bytes_frame, ← h.whole]
    simp [Group.tag]
  | attributes cells h =>
    rw [bytes, cells, groupPart_some, ← Cell.Form.bytes_frame, ← h.whole]
    simp [Group.tag]
  | stored h => simp [bytes, storedPart, tagged, h]

/-- A group that is read where a cell of canonical ones has been altered. -/
theorem group_not_verified {k : Group} {cells : Option (List Cell.Form)} {cs ds : List Cell.Form}
    {c : Cell.Form} (canonical : ∀ x ∈ cs ++ c :: ds, x.Canonical)
    (h : c.frame.Covered before part after) (altered : Altered part part')
    (group_before : (groupLayout k).Before cells rest)
    (same : groupPart k cells ++ rest = k.tag.code :: (Cell.Form.many.bytes cs ++
      Tag.cell.code :: (before ++ (part' ++ (after ++ rest'))))) :
    ∃ x ∈ cells.getD [], ¬ x.Verified := by
  have stored : c.frame.stored = some c.frame.computed := by
    rw [Cell.Form.computed_frame]
    exact (canonical c (by simp)).stored
  have some_checksum : ∀ x ∈ cs, x.stored.isSome := fun x hx => by
    simp [(canonical x (List.mem_append_left _ hx)).stored]
  obtain ⟨w, bytes_w, wrong⟩ := h.exists_altered (Cell.Form.sized_frame c) stored altered
  cases cells with
  | none =>
    cases (show rest = k.tag.code :: _ from same)
    exact absurd rfl group_before
  | some fs =>
    have behind : Cell.Form.many.bytes fs ++ rest =
        Cell.Form.many.bytes cs ++ Tag.cell.code :: (w.bytes ++ rest') := by
      simpa [bytes_w] using (List.cons.inj same).2
    exact Cell.Form.exists_not_verified some_checksum wrong group_before behind

/-- A row that is read where an altered row stands does not have all its checksums right. -/
theorem Covered.not_verified (h : f.Covered before part after) (canonical : f.Canonical)
    (altered : Altered part part') (some_part : g.tags ≠ []) (g_before : g.Before rest)
    (same : g.bytes ++ rest = before ++ (part' ++ (after ++ rest'))) : ¬ g.Verified := by
  cases h with
  | @primaryKey cs ds c before part after present h =>
    have cells : ∀ x ∈ cs ++ c :: ds, x.Canonical := fun x hx =>
      canonical.cells x (List.mem_append_left _ (by simpa [present] using hx))
    simp only [bytes, List.append_assoc, List.cons_append] at same
    obtain ⟨x, mem, unverified⟩ := group_not_verified cells h altered g_before.primaryKey same
    exact fun verified => unverified (verified.cells x (List.mem_append_left _ mem))
  | @attributes cs ds c before part after present h =>
    have cells : ∀ x ∈ cs ++ c :: ds, x.Canonical := fun x hx =>
      canonical.cells x (List.mem_append_right _ (by simpa [present] using hx))
    simp only [bytes, List.append_assoc, List.cons_append] at same
    obtain ⟨_, behind⟩ := group_unambiguous .primaryKey same g_before.primaryKey
      ((group_before_iff ⟨.attributes, by decide, _, rfl⟩).mpr fun _ =>
        show Tag.attributes.code ≠ Tag.primaryKey.code by decide)
    obtain ⟨x, mem, unverified⟩ := group_not_verified cells h altered g_before.attributes behind
    exact fun verified => unverified (verified.cells x (List.mem_append_right _ mem))
  | @stored k h =>
    -- another checksum makes another form, so this one is read
    obtain ⟨k', ne, rfl⟩ := altered.of_singleton
    let f' : Form := { f with stored := some k' }
    have same' : g.bytes ++ rest = f'.bytes ++ rest' := by
      simpa [f', bytes, deletedPart, storedPart, tagged] using same
    obtain ⟨rfl, _⟩ := unambiguous same' some_part g_before (by simp [f', tags])
      (before_of_stored rfl rest')
    intro verified
    exact ne ((Option.some.inj (h.symm.trans canonical.stored)).trans (verified.stored k' rfl).symm)

theorem Canonical.not_verified_flip (h : f.Canonical) : ¬ f.flip.Verified := by
  intro verified
  have marker : Altered [f.deleted.toUInt8] [f.flip.deleted.toUInt8] := by
    refine ⟨[], f.deleted.toUInt8, f.flip.deleted.toUInt8, [], ?_, rfl, rfl⟩
    show f.deleted.toUInt8 ≠ (!f.deleted).toUInt8
    cases f.deleted <;> decide
  exact Crc8.fold_ne_of_altered (marker.append_left (f.wire.cells.map WireCell.effective)) 0
    (verified.stored _ h.stored).symm

end Row.Form

end TableWire
