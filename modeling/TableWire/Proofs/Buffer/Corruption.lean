import TableWire.Proofs.Buffer.RoundTrip
import TableWire.Proofs.Buffer.Verification
import TableWire.Proofs.Row.Coverage
/-!
Written buffers in which a covered byte has been altered, or a delete marker put in or taken out.
They are refused where checksums are verified.
-/

namespace TableWire.Buffer

/-- In a buffer that holds the rows `fs`, the byte at `i` is covered by a checksum or is one. -/
def Covered (fs : List Row.Form) (i : Nat) : Prop :=
  ∃ gs f hs before part after, fs = gs ++ f :: hs ∧ f.Covered before part after ∧
    headerSize + (rowsBytes gs).length + before.length ≤ i ∧
    i < headerSize + (rowsBytes gs).length + before.length + part.length

/-- What a decoder with verification accepts holds rows that have all their checksums right. -/
theorem written_of_decodeRows {limit : Option Nat} {b : Bytes} {rows : List WireRow}
    (some_byte : b ≠ []) (accepted : (decodeRows ⟨true, limit⟩ b).outcome = .ok rows) :
    ∃ fs, Written fs b ∧ ∀ f ∈ fs, f.Verified := by
  rcases decodeRows_adds b with same | ⟨_, _, _, _, failed⟩
  · obtain ⟨fs, written, _, _, mismatch⟩ := decodeRows_settles some_byte (same.symm.trans accepted)
    refine ⟨fs, written, ?_⟩
    by_contra unverified
    obtain ⟨e, _, failed⟩ := mismatch unverified
    cases accepted.symm.trans failed
  · cases accepted.symm.trans failed

/-- Behind rows that end with their checksums a row is read, when there is anything. -/
theorem Rows.exists_behind {gs fs : List Row.Form} {more : Bytes} (h : Rows fs)
    (stored : ∀ g ∈ gs, g.stored.isSome) (some_more : more ≠ [])
    (same : rowsBytes fs = rowsBytes gs ++ more) :
    ∃ f ∈ fs, f.tags ≠ [] ∧ ∃ rest, f.Before rest ∧ f.bytes ++ rest = more := by
  induction gs generalizing fs with
  | nil =>
    cases fs with
    | nil => exact absurd rfl h.some_row
    | cons f fs =>
      obtain ⟨⟨some_part, before⟩, _⟩ := rows_cons.mp h
      exact ⟨f, by simp, some_part, rowsBytes fs, before, same⟩
  | cons g gs ih =>
    obtain ⟨g_stored, stored⟩ := List.forall_mem_cons.mp stored
    cases fs with
    | nil => exact absurd rfl h.some_row
    | cons f fs =>
      obtain ⟨⟨some_part, before⟩, fs_rows⟩ := rows_cons.mp h
      rw [rowsBytes, rowsBytes, List.flatMap_cons, List.flatMap_cons, List.append_assoc] at same
      obtain ⟨_, behind⟩ := Row.Form.unambiguous same some_part before
        (by simp [Row.Form.tags, g_stored]) (Row.Form.before_of_stored g_stored _)
      rcases fs_rows with rfl | rows
      · exact absurd (List.append_eq_nil_iff.mp behind.symm).2 some_more
      · obtain ⟨f', mem, found⟩ := ih rows stored behind
        exact ⟨f', List.mem_cons_of_mem f mem, found⟩

/-- A buffer is refused when behind some of its rows no row with right checksums can be read. -/
theorem decodeRows_of_not_verified {limit : Option Nat} {gs : List Row.Form} {more : Bytes}
    (stored : ∀ g ∈ gs, g.stored.isSome) (some_more : more ≠ [])
    (not_verified : ∀ g : Row.Form, ∀ rest, g.tags ≠ [] → g.Before rest → g.bytes ++ rest = more →
      ¬ g.Verified) :
    ∃ e, (decodeRows ⟨true, limit⟩ (word32 header.toNat ++ (rowsBytes gs ++ more))).outcome =
      .error e := by
  cases outcome : (decodeRows ⟨true, limit⟩ _).outcome with
  | error e => exact ⟨e, rfl⟩
  | ok rows =>
    obtain ⟨fs, written, verified⟩ := written_of_decodeRows (by simp [some_more]) outcome
    have same := (List.append_cancel_left written.bytes).symm
    obtain ⟨f, mem, some_part, rest, before, found⟩ :=
      written.rows.exists_behind stored some_more same
    exact absurd (verified f mem) (not_verified f rest some_part before found)

section Canonical

variable {limit : Option Nat} {fs gs hs : List Row.Form} {f : Row.Form}

theorem stored_of_canonical (canonical : ∀ x ∈ gs ++ hs, x.Canonical) :
    ∀ g ∈ gs, g.stored.isSome :=
  fun g hg => by simp [(canonical g (List.mem_append_left hs hg)).stored]

theorem decodeRows_set_covered (canonical : ∀ x ∈ fs, x.Canonical) {i : Nat} {y : UInt8}
    (covered : Covered fs i) (ne : (word32 header.toNat ++ rowsBytes fs)[i]? ≠ some y) :
    ∃ e, (decodeRows ⟨true, limit⟩ ((word32 header.toNat ++ rowsBytes fs).set i y)).outcome =
      .error e := by
  obtain ⟨gs, f, hs, before, part, after, rfl, h, start, stop⟩ := covered
  have whole : word32 header.toNat ++ rowsBytes (gs ++ f :: hs) =
      word32 header.toNat ++ (rowsBytes gs ++ before) ++ (part ++ (after ++ rowsBytes hs)) := by
    simp [rowsBytes, ← h.whole]
  have ends : (word32 header.toNat ++ (rowsBytes gs ++ before)).length =
      headerSize + (rowsBytes gs).length + before.length := by
    simp [headerSize, Nat.add_assoc]
  rw [whole] at ne ⊢
  obtain ⟨part', altered, set⟩ := Altered.of_set (ends ▸ start) (ends ▸ stop) ne
  have some_more : before ++ (part' ++ (after ++ rowsBytes hs)) ≠ [] := by
    simp [altered.ne_nil]
  rw [set, List.append_assoc, List.append_assoc]
  refine decodeRows_of_not_verified (stored_of_canonical canonical) some_more
    fun g rest some_part before same => ?_
  exact h.not_verified (canonical f (by simp)) altered some_part before same

theorem decodeRows_flip (canonical : ∀ x ∈ gs ++ f :: hs, x.Canonical) :
    ∃ e, (decodeRows ⟨true, limit⟩
      (word32 header.toNat ++ rowsBytes (gs ++ f.flip :: hs))).outcome = .error e := by
  have row := canonical f (by simp)
  have flip_stored : f.flip.stored.isSome := by simp [Row.Form.flip, row.stored]
  have flip_part : f.flip.tags ≠ [] := by simp [Row.Form.tags, flip_stored]
  have some_more : f.flip.bytes ++ rowsBytes hs ≠ [] := by
    simp [Row.Form.bytes_eq_nil_iff, flip_part]
  rw [rowsBytes, List.flatMap_append, List.flatMap_cons]
  refine decodeRows_of_not_verified (stored_of_canonical canonical) some_more
    fun g rest some_part before same => ?_
  obtain ⟨rfl, _⟩ := Row.Form.unambiguous same some_part before flip_part
    (Row.Form.before_of_stored flip_stored _)
  exact row.not_verified_flip

end Canonical

/-- A written buffer is refused once a covered byte or a checksum has been replaced by another byte,
whatever can be read in its place, or once a delete marker has been put in or taken out. -/
theorem decodeRows_detects {rows : List Row} {b : Bytes} (some_row : rows ≠ [])
    (written : encode rows = .ok b) (limit : Option Nat) :
    ∃ fs, Written fs b ∧ fs.map (·.wire.row) = rows ∧
      (∀ i y, Covered fs i → b[i]? ≠ some y →
        ∃ e, (decodeRows { verify := true, maxRows := limit } (b.set i y)).outcome = .error e) ∧
      ∀ gs f hs, fs = gs ++ f :: hs →
        ∃ e, (decodeRows { verify := true, maxRows := limit }
          (word32 header.toNat ++ rowsBytes (gs ++ f.flip :: hs))).outcome = .error e := by
  obtain ⟨fs, canonical, rfl, rfl⟩ := encode_eq_ok.mp written
  refine ⟨fs, ⟨rows_of_canonical (by simpa using some_row) canonical, rfl⟩, rfl, ?_, ?_⟩
  · exact fun i y covered ne => decodeRows_set_covered canonical covered ne
  · rintro gs f hs rfl
    exact decodeRows_flip canonical

theorem decodeRows_detects_two_rows :
    let rows : List Row := [{ primaryKey := [.put "a" (.int 7)] },
      { attributes := [.deleteOne "b" 5], deleted := true }]
    let b : Bytes := [0x75, 0, 0, 0, 1, 3, 4, 1, 0, 0, 0, 97, 5, 9, 0, 0, 0, 0, 7, 0, 0, 0, 0, 0, 0,
      0, 10, 116, 9, 246, 2, 3, 4, 1, 0, 0, 0, 98, 6, 3, 7, 5, 0, 0, 0, 0, 0, 0, 0, 10, 38, 8, 9,
      215]
    rows ≠ [] ∧ encode rows = .ok b ∧
      (∃ e, (decodeRows { verify := true } (b.set 17 1)).outcome = .error e) ∧
      ∃ e, (decodeRows { verify := true } (b.eraseIdx 51)).outcome = .error e := by
  intro rows b
  have written : encode rows = .ok b := by decide +kernel
  let cell : Cell.Form := ⟨"a", some ⟨.int 7, by decide⟩, none, none, some 116, by decide⟩
  let first : Row.Form := ⟨some [cell], none, false, some 246⟩
  let second : Row.Form :=
    ⟨none, some [⟨"b", none, some .deleteOne, some 5, some 38, by decide⟩], true, some 215⟩
  have forms : Written [first, second] b := {
    rows := {
      some_row := by simp
      some_part := by simp [Row.Form.tags, first, second]
      separated := by simp [separated_of_stored, first]
      sealed := by simp [second] }
    bytes := by decide +kernel }
  have type_byte : first.Covered _ _ _ :=
    @Row.Form.Covered.primaryKey first [] [] cell _ _ _ rfl (.value rfl)
  have covered : Covered [first, second] 17 :=
    ⟨[], first, [second], _, _, _, rfl, type_byte, by decide, by decide⟩
  obtain ⟨fs, written', _, set, flip⟩ := decodeRows_detects (by decide) written none
  obtain rfl : fs = [first, second] := written'.rows.ext_of_bytes forms.rows
    (List.append_cancel_left (written'.bytes.symm.trans forms.bytes))
  have unmarked : b.eraseIdx 51 = word32 header.toNat ++ rowsBytes [first, second.flip] := by
    decide +kernel
  exact ⟨by decide, written, set 17 1 covered (by decide), unmarked ▸ flip [first] second [] rfl⟩

end TableWire.Buffer
