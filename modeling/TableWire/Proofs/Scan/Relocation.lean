import TableWire.Proofs.Scan.Span
/-!
Scanners at another place. What a scanner does depends on the bytes of its window alone, so where
the window stands later by `n` bytes, every place in the outcome does too (`Scan.Moves`).
-/

namespace TableWire

/-- The same error, met `n` bytes later. -/
def BufferError.move (n : Nat) : BufferError → BufferError
  | .unknownValueType tag offset => .unknownValueType tag (offset + n)
  | .missingName offset => .missingName (offset + n)
  | .truncated offset needed remaining => .truncated (offset + n) needed remaining
  | .unexpectedTag tag offset => .unexpectedTag tag (offset + n)
  | .unknownOperation op offset => .unknownOperation op (offset + n)
  | .checksumMismatch scope stored computed offset =>
    .checksumMismatch scope stored computed (offset + n)
  | .invalidUtf8 offset => .invalidUtf8 (offset + n)
  | .noHeader found => .noHeader found
  | .emptyRow => .emptyRow
  | .lengthOverflow field length => .lengthOverflow field length
  | .unsupported input => .unsupported input
  | .tooManyRows limit => .tooManyRows limit

namespace Cursor

/-- The same window, `n` bytes later. -/
def move (n : Nat) (c : Cursor) : Cursor := ⟨c.offset + n, c.rest⟩

variable {n k : Nat} {c : Cursor}

@[simp] theorem move_offset : (c.move n).offset = c.offset + n := rfl

@[simp] theorem move_rest : (c.move n).rest = c.rest := rfl

@[simp] theorem move_remaining : (c.move n).remaining = c.remaining := rfl

@[simp] theorem move_holds : (c.move n).holds k = c.holds k := rfl

theorem move_advance : (c.move n).advance k = (c.advance k).move n := by
  simp [advance, move, Nat.add_right_comm]

theorem move_window : (c.move n).window k = (c.window k).move n := rfl

end Cursor

namespace Scan

variable {α β : Type} {n : Nat}

/-- The same outcome, `n` bytes later; `f` moves the places in the value. -/
def moveResult (n : Nat) (f : α → α) :
    EStateM.Result BufferError Cursor α → EStateM.Result BufferError Cursor α
  | .ok a d => .ok (f a) (d.move n)
  | .error e d => .error (e.move n) (d.move n)

def MovesAt (n : Nat) (f : α → α) (p q : Scan α) (c : Cursor) : Prop :=
  q (c.move n) = moveResult n f (p c)

/-- Where the window stands `n` bytes later, `q` does what `p` does. -/
def Moves (n : Nat) (f : α → α) (p q : Scan α) : Prop := ∀ c, MovesAt n f p q c

theorem MovesAt.bind {f : α → α} {g : β → β} {p q : Scan α} {p' q' : α → Scan β} {c : Cursor}
    (h : MovesAt n f p q c) (h' : ∀ a d, p c = .ok a d → MovesAt n g (p' a) (q' (f a)) d) :
    MovesAt n g (p >>= p') (q >>= q') c := by
  cases run : p c with
  | ok a d =>
    have moved : q (c.move n) = .ok (f a) (d.move n) := by rw [h, run]; rfl
    rw [MovesAt, bind_of_ok run, bind_of_ok moved]
    exact h' a d run
  | error e d =>
    have moved : q (c.move n) = .error (e.move n) (d.move n) := by rw [h, run]; rfl
    rw [MovesAt, bind_of_error run, bind_of_error moved]
    rfl

theorem Moves.bind {f : α → α} {g : β → β} {p q : Scan α} {p' q' : α → Scan β}
    (h : Moves n f p q) (h' : ∀ a, Moves n g (p' a) (q' (f a))) :
    Moves n g (p >>= p') (q >>= q') :=
  fun c => (h c).bind fun a d _ => h' a d

theorem moves_pure (f : α → α) (a : α) : Moves n f (pure a) (pure (f a)) := fun _ => rfl

theorem moves_fail (f : α → α) (e : BufferError) : Moves n f (fail e) (fail (e.move n)) :=
  fun _ => rfl

theorem moves_position : Moves n (· + n) position position := fun _ => rfl

theorem moves_short (f : α → α) (k : Nat) : Moves n f (short k) (short k) := fun _ => rfl

theorem moves_peek : Moves n id peek peek := by
  intro ⟨o, rest⟩
  cases rest <;> rfl

theorem moves_accept (tag : UInt8) : Moves n id (accept tag) (accept tag) := by
  intro ⟨o, rest⟩
  cases rest with
  | nil => rfl
  | cons b bs =>
    simp only [MovesAt, accept, Cursor.move_rest]
    split
    · rw [Cursor.move_advance]
      rfl
    · rfl

theorem moves_byte : Moves n id byte byte := by
  intro ⟨o, rest⟩
  cases rest with
  | nil => rfl
  | cons b bs =>
    simp only [MovesAt, byte, Cursor.move_rest, Cursor.move_advance]
    rfl

theorem moves_take (k : Nat) : Moves n id (take k) (take k) := by
  intro c
  simp only [MovesAt, take, Cursor.move_holds, Cursor.move_advance, Cursor.move_rest]
  split
  · rfl
  · exact moves_short id k c

/-- A window that is split off stands later too. -/
theorem moves_window (k : Nat) : Moves n (·.move n) (window k) (window k) := by
  intro c
  simp only [MovesAt, window, Cursor.move_holds, Cursor.move_advance, Cursor.move_window]
  split
  · rfl
  · exact moves_short (·.move n) k c

theorem moves_word32 : Moves n id word32 word32 := (moves_take 4).bind fun _ => moves_pure id _

theorem moves_word64 : Moves n id word64 word64 := (moves_take 8).bind fun _ => moves_pure id _

theorem moves_sized : Moves n id sized sized := moves_word32.bind fun k => moves_take k.toNat

theorem moves_within {f : α → α} {p q : Scan α} (h : Moves n f p q) (w : Cursor) :
    Moves n (Prod.map f (·.move n)) (within w p) (within (w.move n) q) := by
  intro c
  have same : q (w.move n) = moveResult n f (p w) := h w
  simp only [MovesAt, within, same]
  cases p w <;> rfl

theorem Moves.map {f : α → α} {g : β → β} {p q : Scan α} (h : Moves n f p q) {k : α → β}
    (hk : ∀ a, g (k a) = k (f a)) : Moves n g (k <$> p) (k <$> q) := by
  rw [← bind_pure_comp, ← bind_pure_comp]
  exact h.bind fun a => hk a ▸ moves_pure g (k a)

theorem Moves.optional {f : α → α} {p q : Scan α} (h : Moves n f p q) (tag : UInt8) :
    Moves n (Option.map f) (Scan.optional tag p) (Scan.optional tag q) := by
  refine (moves_accept tag).bind fun found => ?_
  cases found
  · exact moves_pure _ none
  · exact h.map fun _ => rfl

theorem Moves.located {p q : Scan α} (h : Moves n id p q) :
    Moves n (Prod.map (· + n) id) (Scan.located p) (Scan.located q) :=
  moves_position.bind fun o => h.bind fun a => moves_pure (Prod.map (· + n) id) (o, a)

theorem Moves.items {p : Logged α} (h : Moves n id p.silent p.silent) (tag : UInt8)
    (forward : p.silent.Forward) :
    Moves n id (Scan.items tag p forward) (Scan.items tag p forward) := by
  intro c
  induction c using items_induction forward tag with
  | turn c ih =>
    rw [items_eq]
    refine (moves_accept tag c).bind fun found d run => ?_
    cases found
    · exact moves_pure id [] d
    · refine (h d).bind fun a e item => ?_
      exact (ih d a e run item).bind fun as e' _ => moves_pure id (a :: as) e'

end Scan

end TableWire
