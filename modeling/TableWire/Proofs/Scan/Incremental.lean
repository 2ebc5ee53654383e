import TableWire.Proofs.Scan.Span
/-!
Scanners on input that is cut short. No scanner looks further than it needs: with more input behind,
it does the same, unless it had run out of input before (`Scan.Incremental`).
-/

namespace TableWire

namespace Cursor

/-- The same place, with more input behind its window. -/
def extend (c : Cursor) (more : Bytes) : Cursor := ⟨c.offset, c.rest ++ more⟩

@[simp] theorem extend_offset (c : Cursor) (more : Bytes) : (c.extend more).offset = c.offset := rfl

@[simp] theorem extend_rest (c : Cursor) (more : Bytes) : (c.extend more).rest = c.rest ++ more :=
  rfl

variable {c : Cursor} {n : Nat}

theorem holds_extend (h : c.holds n) (more : Bytes) : (c.extend more).holds n := by
  rw [holds_iff] at h ⊢
  simp only [remaining, extend_rest, List.length_append] at h ⊢
  omega

theorem advance_extend (h : c.holds n) (more : Bytes) :
    (c.extend more).advance n = (c.advance n).extend more := by
  simp [advance, extend, List.drop_append_of_le_length (holds_iff.mp h)]

theorem take_extend (h : c.holds n) (more : Bytes) :
    (c.extend more).rest.take n = c.rest.take n :=
  List.take_append_of_le_length (holds_iff.mp h)

end Cursor

namespace Scan

variable {α β : Type}

/-- The run stopped for want of bytes. -/
def Starved (r : EStateM.Result BufferError Cursor α) : Prop :=
  ∃ d offset needed remaining, r = .error (.truncated offset needed remaining) d

/-- The same outcome, with more input behind the place of it. -/
def extendResult (more : Bytes) :
    EStateM.Result BufferError Cursor α → EStateM.Result BufferError Cursor α
  | .ok a d => .ok a (d.extend more)
  | .error e d => .error e (d.extend more)

/-- From this place, the scanner runs out of input or does the same with more of it. -/
def IncrementalAt (p : Scan α) (c : Cursor) : Prop :=
  ∀ more, Starved (p c) ∨ p (c.extend more) = extendResult more (p c)

def Incremental (p : Scan α) : Prop := ∀ c, p.IncrementalAt c

/-- A success on longer input is the same success, or want of bytes. -/
theorem IncrementalAt.of_extend_eq_ok {p : Scan α} {c d : Cursor} {more : Bytes} {a : α}
    (h : p.IncrementalAt c) (run : p (c.extend more) = .ok a d) :
    Starved (p c) ∨ ∃ e, p c = .ok a e ∧ d = e.extend more := by
  refine (h more).imp_right fun same => ?_
  rw [run] at same
  cases short : p c with
  | ok b e =>
    rw [short] at same
    cases same
    exact ⟨e, rfl, rfl⟩
  | error e d =>
    rw [short] at same
    cases same

theorem IncrementalAt.bind {p : Scan α} {f : α → Scan β} {c : Cursor} (hp : p.IncrementalAt c)
    (hf : ∀ a d, p c = .ok a d → (f a).IncrementalAt d) : (p >>= f).IncrementalAt c := by
  intro more
  cases run : p c with
  | ok a d =>
    rw [bind_of_ok run]
    rcases hp more with ⟨_, _, _, _, failed⟩ | same
    · cases run.symm.trans failed
    · rw [bind_of_ok (same.trans (congrArg _ run))]
      exact hf a d run more
  | error e d =>
    rw [bind_of_error run]
    rcases hp more with ⟨_, o, n, r, failed⟩ | same
    · cases run.symm.trans failed
      exact .inl ⟨_, o, n, r, rfl⟩
    · exact .inr (bind_of_error (same.trans (congrArg _ run)))

theorem Incremental.bind {p : Scan α} {f : α → Scan β} (hp : p.Incremental)
    (hf : ∀ a, (f a).Incremental) : (p >>= f).Incremental :=
  fun c => (hp c).bind fun a d _ => hf a d

theorem Incremental.pure (a : α) : Incremental (Pure.pure a : Scan α) := fun _ _ => .inr rfl

theorem incremental_fail (e : BufferError) : Incremental (fail e : Scan α) := fun _ _ => .inr rfl

theorem incremental_position : position.Incremental := fun _ _ => .inr rfl

theorem starved_short (n : Nat) (c : Cursor) : Starved (short n c : EStateM.Result _ _ α) :=
  ⟨_, _, _, _, rfl⟩

theorem incremental_peek : peek.Incremental := by
  intro ⟨o, rest⟩ more
  cases rest with
  | nil => exact .inl (starved_short _ _)
  | cons b bs => exact .inr rfl

theorem incremental_accept (tag : UInt8) : (accept tag).Incremental := by
  intro ⟨o, rest⟩ more
  cases rest with
  | nil => exact .inl (starved_short _ _)
  | cons b bs =>
    right
    simp only [accept, Cursor.extend, List.cons_append]
    split <;> rfl

theorem incremental_byte : byte.Incremental := by
  intro ⟨o, rest⟩ more
  cases rest with
  | nil => exact .inl (starved_short _ _)
  | cons b bs => exact .inr rfl

theorem incremental_take (n : Nat) : (take n).Incremental := by
  intro c more
  by_cases h : c.holds n
  · right
    rw [take, take, if_pos h, if_pos (Cursor.holds_extend h more), Cursor.take_extend h,
      Cursor.advance_extend h]
    rfl
  · rw [take, if_neg h]
    exact .inl (starved_short _ _)

theorem incremental_window (n : Nat) : (window n).Incremental := by
  intro c more
  by_cases h : c.holds n
  · right
    rw [window, window, if_pos h, if_pos (Cursor.holds_extend h more), Cursor.window,
      Cursor.take_extend h, Cursor.advance_extend h]
    rfl
  · rw [window, if_neg h]
    exact .inl (starved_short _ _)

theorem incremental_word32 : word32.Incremental := (incremental_take 4).bind fun _ => .pure _

theorem incremental_word64 : word64.Incremental := (incremental_take 8).bind fun _ => .pure _

theorem incremental_sized : sized.Incremental :=
  incremental_word32.bind fun n => incremental_take n.toNat

/-- A window that has been split off is the same on all inputs, whatever is scanned in it. -/
theorem incremental_within (w : Cursor) (p : Scan α) : (within w p).Incremental := by
  intro c more
  right
  simp only [within]
  cases p w <;> rfl

theorem Incremental.optional {p : Scan α} (hp : p.Incremental) (tag : UInt8) :
    (Scan.optional tag p).Incremental := by
  refine (incremental_accept tag).bind fun found => ?_
  cases found
  · exact .pure none
  · exact hp.bind fun a => .pure (some a)

theorem Incremental.located {p : Scan α} (hp : p.Incremental) : (Scan.located p).Incremental :=
  incremental_position.bind fun o => hp.bind fun a => .pure (o, a)

theorem Incremental.items {p : Logged α} (hp : p.silent.Incremental) (tag : UInt8)
    (forward : p.silent.Forward) : (Scan.items tag p forward).Incremental := by
  intro c
  induction c using items_induction forward tag with
  | turn c ih =>
    rw [items_eq]
    refine (incremental_accept tag c).bind fun found d run => ?_
    cases found
    · exact Incremental.pure [] d
    · refine (hp d).bind fun a e item => ?_
      exact (ih d a e run item).bind fun as e' _ => Incremental.pure (a :: as) e'

end Scan

end TableWire
