import TableWire.Bytes.Basic
/-!
A cursor: a place in a buffer, with the bytes from there to the end of its window. `Reaches` orders
the cursors of one window by how much has been consumed.
-/

namespace TableWire

structure Cursor : Type where
  offset : Nat
  rest : Bytes
  deriving DecidableEq, Repr

namespace Cursor

def start (bs : Bytes) : Cursor := ⟨0, bs⟩

/-- An offset past the end stands for the end. -/
def seek (bs : Bytes) (offset : Nat) : Cursor := ⟨min offset bs.length, bs.drop offset⟩

def remaining (c : Cursor) : Nat := c.rest.length

def isEmpty (c : Cursor) : Bool := c.rest.isEmpty

/-- Whether `n` bytes are left; no more than `n` of them are looked at. -/
def holds (n : Nat) (c : Cursor) : Bool := (c.rest.take n).length = n

theorem holds_iff {n : Nat} {c : Cursor} : c.holds n ↔ n ≤ c.remaining := by
  simp only [holds, remaining, List.length_take, decide_eq_true_eq]
  omega

def advance (n : Nat) (c : Cursor) : Cursor := ⟨c.offset + n, c.rest.drop n⟩

/-- The next `n` bytes as a window of their own. -/
def window (n : Nat) (c : Cursor) : Cursor := ⟨c.offset, c.rest.take n⟩

/-- `d` is `c` after some of the bytes of its window. -/
def Reaches (c d : Cursor) : Prop := ∃ n, n ≤ c.remaining ∧ d = c.advance n

theorem Reaches.refl (c : Cursor) : c.Reaches c := ⟨0, Nat.zero_le _, rfl⟩

theorem Reaches.trans {c d e : Cursor} (h : c.Reaches d) (h' : d.Reaches e) : c.Reaches e := by
  obtain ⟨n, hn, rfl⟩ := h
  obtain ⟨m, hm, rfl⟩ := h'
  refine ⟨n + m, ?_, ?_⟩
  · simp only [remaining, advance, List.length_drop] at *
    omega
  · simp [advance, Nat.add_assoc]

theorem Reaches.advance {c : Cursor} {n : Nat} (h : n ≤ c.remaining) : c.Reaches (c.advance n) :=
  ⟨n, h, rfl⟩

theorem Reaches.remaining_le {c d : Cursor} (h : c.Reaches d) : d.remaining ≤ c.remaining := by
  obtain ⟨n, _, rfl⟩ := h
  simp [remaining, Cursor.advance]

theorem Reaches.offset_add_remaining {c d : Cursor} (h : c.Reaches d) :
    d.offset + d.remaining = c.offset + c.remaining := by
  obtain ⟨n, hn, rfl⟩ := h
  simp only [remaining, Cursor.advance, List.length_drop] at *
  omega

theorem Reaches.remaining_lt {c d : Cursor} (h : c.Reaches d) (moved : d.offset ≠ c.offset) :
    d.remaining < c.remaining := by
  have := h.offset_add_remaining
  have := h.remaining_le
  omega

end Cursor

end TableWire
