import TableWire.Proofs.Scan.Span
/-!
The ways to read at a cursor. What a reading answers is told by the bytes behind the cursor; it
fails only when there are too few of them.
-/

namespace TableWire

/-- Fewer bytes are left than the error says are needed. -/
def Cursor.Lacks (c : Cursor) (e : BufferError) : Prop :=
  ∃ needed, c.remaining < needed ∧ e = .truncated c.offset needed c.remaining

namespace Scan

variable {α β : Type} {c d : Cursor} {e : BufferError}

theorem bind_eq_error {p : Scan α} {f : α → Scan β} :
    (p >>= f) c = .error e d ↔
      p c = .error e d ∨ ∃ a c', p c = .ok a c' ∧ f a c' = .error e d := by
  cases run : p c with
  | ok a c' => simp [bind_of_ok run]
  | error e' d' => simp [bind_of_error run]

theorem not_pure_error {a : α} : (pure a : Scan α) c ≠ .error e d := nofun

theorem lacks_of_short {n : Nat} (few : c.remaining < n)
    (run : (short n : Scan α) c = .error e d) : d = c ∧ c.Lacks e := by
  cases run
  exact ⟨rfl, n, few, rfl⟩

theorem lacks_of_peek (run : peek c = .error e d) : d = c ∧ c.Lacks e := by
  obtain ⟨o, rest⟩ := c
  cases rest with
  | nil => exact lacks_of_short (α := UInt8) Nat.one_pos run
  | cons x xs => cases run

theorem lacks_of_accept {tag : UInt8} (run : accept tag c = .error e d) : d = c ∧ c.Lacks e := by
  obtain ⟨o, rest⟩ := c
  cases rest with
  | nil => exact lacks_of_short (α := Bool) Nat.one_pos run
  | cons x xs =>
    simp only [accept] at run
    split at run <;> cases run

theorem lacks_of_byte (run : byte c = .error e d) : d = c ∧ c.Lacks e := by
  obtain ⟨o, rest⟩ := c
  cases rest with
  | nil => exact lacks_of_short (α := UInt8) Nat.one_pos run
  | cons x xs => cases run

theorem lacks_of_take {n : Nat} (run : take n c = .error e d) : d = c ∧ c.Lacks e := by
  simp only [take] at run
  split at run
  · cases run
  · next few => exact lacks_of_short (by simpa [Cursor.holds_iff] using few) run

theorem lacks_of_window {n : Nat} (run : window n c = .error e d) : d = c ∧ c.Lacks e := by
  simp only [window] at run
  split at run
  · cases run
  · next few => exact lacks_of_short (by simpa [Cursor.holds_iff] using few) run

theorem lacks_of_word32 (run : word32 c = .error e d) : d = c ∧ c.Lacks e := by
  rcases bind_eq_error.mp run with failed | ⟨_, _, _, failed⟩
  · exact lacks_of_take failed
  · exact absurd failed not_pure_error

theorem lacks_of_word64 (run : word64 c = .error e d) : d = c ∧ c.Lacks e := by
  rcases bind_eq_error.mp run with failed | ⟨_, _, _, failed⟩
  · exact lacks_of_take failed
  · exact absurd failed not_pure_error

/-- The length may have been read when the bytes behind it are missing. -/
theorem lacks_of_sized (run : sized c = .error e d) : d.Lacks e := by
  rcases bind_eq_error.mp run with failed | ⟨_, _, _, failed⟩
  · obtain ⟨rfl, lacks⟩ := lacks_of_word32 failed
    exact lacks
  · obtain ⟨rfl, lacks⟩ := lacks_of_take failed
    exact lacks

theorem peek_eq_ok {x : UInt8} : peek c = .ok x d ↔ d = c ∧ c.rest.head? = some x := by
  obtain ⟨o, rest⟩ := c
  cases rest with
  | nil => simp [peek, short]
  | cons y ys => simp [peek, eq_comm, and_comm]

end Scan

inductive Reading : Type
  | peek
  | accept (tag : UInt8)
  | take (n : Nat)
  | byte
  | word32
  | word64
  | sized
  | window (n : Nat)
  deriving DecidableEq, Repr

namespace Reading

def Answer : Reading → Type
  | .peek => UInt8
  | .accept _ => Bool
  | .take _ => Bytes
  | .byte => UInt8
  | .word32 => UInt32
  | .word64 => UInt64
  | .sized => Bytes
  | .window _ => Cursor

def scan : (q : Reading) → Scan q.Answer
  | .peek => Scan.peek
  | .accept tag => Scan.accept tag
  | .take n => Scan.take n
  | .byte => Scan.byte
  | .word32 => Scan.word32
  | .word64 => Scan.word64
  | .sized => Scan.sized
  | .window n => Scan.window n

/-- The bytes behind the cursor, as the answer tells them. -/
def told : (q : Reading) → q.Answer → Bytes
  | .peek, (x : UInt8) => [x]
  | .accept tag, (found : Bool) => if found then [tag] else []
  | .take _, (bs : Bytes) => bs
  | .byte, (x : UInt8) => [x]
  | .word32, (w : UInt32) => TableWire.word32 w.toNat
  | .word64, (w : UInt64) => TableWire.word64 w
  | .sized, (bs : Bytes) => sizedBytes bs
  | .window _, (w : Cursor) => w.rest

/-- The windows that the answer opens. -/
def opened : (q : Reading) → q.Answer → List Cursor
  | .window _, (w : Cursor) => [w]
  | .peek, _ | .accept _, _ | .take _, _ | .byte, _ | .word32, _ | .word64, _ | .sized, _ => []

variable {q : Reading} {c d w : Cursor} {a : q.Answer} {e : BufferError}

theorem forward_scan (q : Reading) : q.scan.Forward := by
  cases q with
  | peek => exact Scan.forward_peek
  | accept tag => exact Scan.forward_accept tag
  | take n => exact Scan.forward_take n
  | byte => exact Scan.forward_byte
  | word32 => exact Scan.forward_word32
  | word64 => exact Scan.forward_word64
  | sized => exact Scan.forward_sized
  | window n => exact Scan.forward_window n

/-- The bytes that are told are next, and left behind unless they were only peeked at. -/
theorem told_of_ok (run : q.scan c = .ok a d) :
    q.told a <+: c.rest ∧ c.Spans (if q = .peek then [] else q.told a) d := by
  by_cases peeked : q = .peek
  · subst peeked
    obtain ⟨rfl, head⟩ := Scan.peek_eq_ok.mp run
    obtain ⟨xs, rest⟩ := List.head?_eq_some_iff.mp head
    exact ⟨⟨xs, rest.symm⟩, Cursor.spans_nil.mpr rfl⟩
  · rw [if_neg peeked]
    suffices span : c.Spans (q.told a) d from ⟨span.rest ▸ List.prefix_append _ _, span⟩
    cases q with
    | peek => exact absurd rfl peeked
    | accept tag => exact (Scan.accept_eq_ok.mp run).1
    | take n => exact (Scan.take_eq_ok.mp run).1
    | byte => exact Scan.byte_eq_ok.mp run
    | word32 => exact Scan.word32_eq_ok.mp run
    | word64 => exact Scan.word64_eq_ok.mp run
    | sized => exact (Scan.sized_eq_ok.mp run).2
    | window n => exact (Scan.window_eq_ok.mp run).1

/-- A window is opened at the cursor, and the reading goes on where it ends. -/
theorem spans_of_opened (run : q.scan c = .ok a d) (opened : w ∈ q.opened a) :
    c.Spans w.rest d ∧ w.offset = c.offset := by
  cases q with
  | window n =>
    obtain rfl := List.mem_singleton.mp opened
    obtain ⟨span, _, same⟩ := Scan.window_eq_ok.mp run
    exact ⟨span, same⟩
  | _ => cases opened

theorem lacks_of_error (run : q.scan c = .error e d) :
    d.Lacks e ∧ (q ≠ .sized → d = c) := by
  suffices h : q = .sized ∨ d = c ∧ c.Lacks e by
    rcases h with rfl | ⟨rfl, lacks⟩
    · exact ⟨Scan.lacks_of_sized run, fun ne => absurd rfl ne⟩
    · exact ⟨lacks, fun _ => rfl⟩
  cases q with
  | peek => exact .inr (Scan.lacks_of_peek run)
  | accept tag => exact .inr (Scan.lacks_of_accept run)
  | take n => exact .inr (Scan.lacks_of_take run)
  | byte => exact .inr (Scan.lacks_of_byte run)
  | word32 => exact .inr (Scan.lacks_of_word32 run)
  | word64 => exact .inr (Scan.lacks_of_word64 run)
  | sized => exact .inl rfl
  | window n => exact .inr (Scan.lacks_of_window run)

end Reading

end TableWire
