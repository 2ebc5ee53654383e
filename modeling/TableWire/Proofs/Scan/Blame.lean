import TableWire.Buffer.Encode
import TableWire.Proofs.Scan.Layout
/-!
What errors tell about the outermost buffer. A window is a part of it, so an error that is met in a
window has its place in the buffer, and what the error reports stands there (`Scan.Honest`).
-/

namespace TableWire

/-- The byte `x` stands in `b` at `offset`, right behind the tag. -/
def StandsBehind (b : Bytes) (tag : UInt8) (offset : Nat) (x : UInt8) : Prop :=
  ∃ p, offset = p + 1 ∧ b[p]? = some tag ∧ b[offset]? = some x

/-- The tag of a stored checksum. -/
def Scope.tag : Scope → Tag
  | .cell => .cellChecksum
  | .row => .rowChecksum

/-- What the error tells about the buffer is true: the bytes that it reports stand at its place, and
are not what is expected there. The errors of writing are never true of a buffer. -/
def BufferError.Blames (limit : Option Nat) (b : Bytes) : BufferError → Prop
  | .truncated offset needed remaining => remaining < needed ∧ offset + remaining ≤ b.length
  | .noHeader found => word32 found.toNat <+: b ∧ found ≠ Buffer.header
  | .unexpectedTag tag offset => b[offset]? = some tag
  | .unknownValueType tag offset => b[offset]? = some tag ∧ ∀ k : Value.Kind, tag ≠ k.code
  | .unknownOperation op offset =>
    StandsBehind b Tag.operation.code offset op ∧ ∀ o : Operation, op ≠ o.code
  | .checksumMismatch scope stored computed offset =>
    StandsBehind b scope.tag.code offset stored ∧ stored ≠ computed
  | .missingName offset =>
    ∃ x, StandsBehind b Tag.cell.code offset x ∧ x ≠ Tag.name.code
  | .invalidUtf8 offset =>
    ∃ bs, bs.length < UInt32.size ∧ sizedBytes bs <+: b.drop offset ∧ ∀ s, Utf8.encode s ≠ bs
  | .tooManyRows n => limit = some n
  | .emptyRow | .lengthOverflow .. | .unsupported _ => False

namespace Cursor

/-- The window of the cursor stands in `b`, at the place of the cursor. -/
structure In (c : Cursor) (b : Bytes) : Prop where
  rest : c.rest <+: b.drop c.offset
  offset : c.offset ≤ b.length

/-- The window stands in `b` right behind the tag. -/
structure InBehind (c : Cursor) (tag : UInt8) (b : Bytes) : Prop extends c.In b where
  behind : ∃ p, c.offset = p + 1 ∧ b[p]? = some tag

variable {b : Bytes} {c d w : Cursor}

theorem in_start (b : Bytes) : (start b).In b := ⟨List.prefix_rfl, Nat.zero_le _⟩

namespace In

theorem offset_add_remaining_le (h : c.In b) : c.offset + c.remaining ≤ b.length := by
  have size := h.rest.length_le
  have := h.offset
  rw [List.length_drop] at size
  simp only [remaining]
  omega

theorem reaches (h : c.In b) (later : c.Reaches d) : d.In b := by
  obtain ⟨n, fits, rfl⟩ := later
  refine ⟨?_, Nat.le_trans (Nat.add_le_add_left fits _) h.offset_add_remaining_le⟩
  rw [advance, ← List.drop_drop]
  exact h.rest.drop n

theorem window (h : c.In b) (span : c.Spans w.rest d) (same : w.offset = c.offset) : w.In b where
  rest := by
    rw [same]
    exact (span.rest ▸ List.prefix_append _ _ : w.rest <+: c.rest).trans h.rest
  offset := same ▸ h.offset

theorem stands (h : c.In b) {bs : Bytes} (span : c.Spans bs d) : bs <+: b.drop c.offset :=
  (span.rest ▸ List.prefix_append _ _ : bs <+: c.rest).trans h.rest

theorem head (h : c.In b) {x : UInt8} {xs : Bytes} (rest : c.rest = x :: xs) :
    b[c.offset]? = some x := by
  obtain ⟨after, stands⟩ := h.rest
  rw [← Nat.add_zero c.offset, ← List.getElem?_drop, ← stands, rest]
  rfl

theorem byte (h : c.In b) {x : UInt8} (span : c.Spans [x] d) : b[c.offset]? = some x :=
  h.head span.rest

theorem behind (h : c.In b) {tag : UInt8} (span : c.Spans [tag] d) (inside : d.In b) :
    d.InBehind tag b :=
  ⟨inside, c.offset, span.offset, h.byte span⟩

end In

theorem InBehind.standsBehind (h : c.InBehind tag b) {x : UInt8} (here : b[c.offset]? = some x) :
    StandsBehind b tag c.offset x :=
  let ⟨p, next, tagged⟩ := h.behind
  ⟨p, next, tagged, here⟩

end Cursor

namespace Scan

variable {α β : Type} {limit : Option Nat} {b : Bytes}

/-- From this place the scanner ends in `b`, or stops with an error that is true of `b`. -/
def HonestAt (limit : Option Nat) (b : Bytes) (p : Scan α) (c : Cursor) : Prop :=
  match p c with
  | .ok _ d => d.In b
  | .error e _ => e.Blames limit b

/-- In any window of `b`, what the errors of the scanner tell is true of `b`. -/
def Honest (limit : Option Nat) (b : Bytes) (p : Scan α) : Prop :=
  ∀ c : Cursor, c.In b → HonestAt limit b p c

/-- Only errors need a look, since a scanner moves forward. -/
theorem HonestAt.of_error {p : Scan α} {c : Cursor} (forward : p.Forward) (inside : c.In b)
    (h : ∀ e d, p c = .error e d → e.Blames limit b) : HonestAt limit b p c := by
  unfold HonestAt
  split
  · next run => exact inside.reaches (forward.ok run)
  · next run => exact h _ _ run

theorem HonestAt.in_of_ok {p : Scan α} {c d : Cursor} {a : α} (h : HonestAt limit b p c)
    (run : p c = .ok a d) : d.In b := by
  rwa [HonestAt, run] at h

theorem HonestAt.blames {p : Scan α} {c d : Cursor} {e : BufferError} (h : HonestAt limit b p c)
    (run : p c = .error e d) : e.Blames limit b := by
  rwa [HonestAt, run] at h

theorem HonestAt.bind {p : Scan α} {f : α → Scan β} {c : Cursor} (h : HonestAt limit b p c)
    (h' : ∀ a d, p c = .ok a d → d.In b → HonestAt limit b (f a) d) :
    HonestAt limit b (p >>= f) c := by
  cases run : p c with
  | ok a d =>
    rw [HonestAt, bind_of_ok run]
    exact h' a d run (h.in_of_ok run)
  | error e d =>
    rw [HonestAt, bind_of_error run]
    exact h.blames run

/-- What follows knows where the value was read from. -/
theorem HonestAt.located_bind {p : Scan α} {f : Nat × α → Scan β} {c : Cursor}
    (h : HonestAt limit b p c)
    (h' : ∀ a d, p c = .ok a d → d.In b → HonestAt limit b (f (c.offset, a)) d) :
    HonestAt limit b (Scan.located p >>= f) c := by
  have same : Scan.located p >>= f = position >>= fun o => p >>= fun a => f (o, a) := by
    simp [Scan.located, bind_assoc]
  rw [same]
  exact h.bind h'

theorem Honest.bind {p : Scan α} {f : α → Scan β} (h : Honest limit b p)
    (h' : ∀ a, Honest limit b (f a)) : Honest limit b (p >>= f) :=
  fun c inside => (h c inside).bind fun a d _ => h' a d

theorem honest_pure (a : α) : Honest limit b (pure a : Scan α) := fun _ inside => inside

theorem honestAt_fail {e : BufferError} (true_of : e.Blames limit b) (c : Cursor) :
    HonestAt limit b (fail e : Scan α) c := true_of

theorem Honest.map {p : Scan α} (h : Honest limit b p) (f : α → β) :
    Honest limit b (f <$> p) := by
  rw [← bind_pure_comp]
  exact h.bind fun a => honest_pure (f a)

theorem honest_position : Honest limit b position := fun _ inside => inside

/-- Bytes are only asked for when there are fewer. -/
theorem honestAt_short {n : Nat} {c : Cursor} (inside : c.In b) (few : c.remaining < n) :
    HonestAt limit b (short n : Scan α) c := ⟨few, inside.offset_add_remaining_le⟩

theorem honest_peek : Honest limit b peek := by
  intro ⟨o, rest⟩ inside
  cases rest with
  | nil => exact honestAt_short (α := UInt8) inside Nat.one_pos
  | cons x xs => exact inside

theorem honest_byte : Honest limit b byte := by
  intro ⟨o, rest⟩ inside
  refine .of_error forward_byte inside fun e d run => ?_
  cases rest with
  | nil => exact (honestAt_short (α := UInt8) inside Nat.one_pos).blames run
  | cons x xs => cases run

theorem honest_accept (tag : UInt8) : Honest limit b (accept tag) := by
  intro ⟨o, rest⟩ inside
  refine .of_error (forward_accept tag) inside fun e d run => ?_
  cases rest with
  | nil => exact (honestAt_short (α := Bool) inside Nat.one_pos).blames run
  | cons x xs =>
    simp only [accept] at run
    split at run <;> cases run

theorem honest_take (n : Nat) : Honest limit b (take n) := by
  intro c inside
  refine .of_error (forward_take n) inside fun e d run => ?_
  simp only [take] at run
  split at run
  · cases run
  · next few =>
    exact (honestAt_short inside (by simpa [Cursor.holds_iff] using few)).blames run

theorem honest_window (n : Nat) : Honest limit b (window n) := by
  intro c inside
  refine .of_error (forward_window n) inside fun e d run => ?_
  simp only [window] at run
  split at run
  · cases run
  · next few =>
    exact (honestAt_short inside (by simpa [Cursor.holds_iff] using few)).blames run

theorem honest_word32 : Honest limit b word32 := (honest_take 4).bind fun _ => honest_pure _

theorem honest_word64 : Honest limit b word64 := (honest_take 8).bind fun _ => honest_pure _

theorem honest_sized : Honest limit b sized := honest_word32.bind fun n => honest_take n.toNat

theorem Honest.located {p : Scan α} (h : Honest limit b p) : Honest limit b (Scan.located p) :=
  honest_position.bind fun o => h.bind fun a => honest_pure (o, a)

/-- A window of `b` is scanned wherever the scan around it stands. -/
theorem Honest.within {p : Scan α} (h : Honest limit b p) {w : Cursor} (part : w.In b) :
    Honest limit b (Scan.within w p) := by
  intro c inside
  refine .of_error (forward_within w p) inside fun e d run => ?_
  simp only [Scan.within] at run
  split at run
  · cases run
  · next failed =>
    cases run
    exact (h w part).blames failed

/-- What is scanned behind a tag may rely on the tag. -/
theorem Honest.optional_behind {p : Scan α} {tag : UInt8}
    (h : ∀ c : Cursor, c.InBehind tag b → HonestAt limit b p c) :
    Honest limit b (Scan.optional tag p) := by
  intro c inside
  refine (honest_accept tag c inside).bind fun found d run inside' => ?_
  cases found
  · exact honest_pure none d inside'
  · rw [if_pos rfl]
    refine (h d (inside.behind (accept_eq_true.mp run) inside')).bind fun a e _ => ?_
    exact honest_pure (some a) e

theorem Honest.optional {p : Scan α} (h : Honest limit b p) (tag : UInt8) :
    Honest limit b (Scan.optional tag p) :=
  .optional_behind fun c inside => h c inside.toIn

/-- Every turn of the loop is scanned behind a tag. -/
theorem Honest.items {p : Logged α} {tag : UInt8} (forward : p.silent.Forward)
    (h : ∀ c : Cursor, c.InBehind tag b → HonestAt limit b p.silent c) :
    Honest limit b (Scan.items tag p forward) := by
  intro c inside
  induction c using items_induction forward tag with
  | turn c ih =>
    rw [items_eq]
    refine (honest_accept tag c inside).bind fun found d run inside' => ?_
    cases found
    · exact honest_pure [] d inside'
    · rw [if_pos rfl]
      refine (h d (inside.behind (accept_eq_true.mp run) inside')).bind fun a e item inside'' => ?_
      exact (ih d a e run item inside'').bind fun as e' _ => honest_pure (a :: as) e'

/-- A byte that has been read behind its tag stands there in `b`. -/
theorem standsBehind_of_optional {tag : UInt8} {c d : Cursor} {stored : Option (Nat × UInt8)}
    (inside : c.In b) (run : Scan.optional tag (Scan.located byte) c = .ok stored d) :
    ∀ x ∈ stored, StandsBehind b tag x.1 x.2 := by
  rintro ⟨o, k⟩ rfl
  obtain ⟨e, span, run⟩ := optional_eq_some.mp run
  obtain ⟨rfl, read⟩ := located_eq_ok.mp run
  have inside' : e.In b := inside.reaches ((forward_accept tag).ok (accept_eq_true.mpr span))
  exact (inside.behind span inside').standsBehind (inside'.byte (byte_eq_ok.mp read))

end Scan

end TableWire
