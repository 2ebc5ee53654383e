import TableWire.Buffer.Error
import TableWire.Scan.Cursor
/-!
Scanners: readers of a cursor's window that stop with an error when the input is not as expected.
A scanner only ever consumes (`Scan.Forward`), also when it fails; loops rely on it to end.
-/

namespace TableWire

/-- A failed scan leaves the cursor where the failure was met. -/
abbrev Scan (α : Type) : Type := EStateM BufferError Cursor α

namespace Scan

variable {α β : Type}

def fail (e : BufferError) : Scan α := throw e

def position : Scan Nat := return (← get).offset

/-- Stops for want of `needed` bytes. -/
def short (needed : Nat) : Scan α := fun c =>
  .error (.truncated c.offset needed c.remaining) c

/-- The next byte, not consumed. The end of the window is an error. -/
def peek : Scan UInt8 := fun c =>
  match c.rest with
  | [] => short 1 c
  | b :: _ => .ok b c

/-- Consumes the next byte if it is `tag`. -/
def accept (tag : UInt8) : Scan Bool := fun c =>
  match c.rest with
  | [] => short 1 c
  | b :: _ => if b = tag then .ok true (c.advance 1) else .ok false c

def take (n : Nat) : Scan Bytes := fun c =>
  if c.holds n then .ok (c.rest.take n) (c.advance n) else short n c

def byte : Scan UInt8 := fun c =>
  match c.rest with
  | [] => short 1 c
  | b :: _ => .ok b (c.advance 1)

def word32 : Scan UInt32 := return UInt32.ofNat (LittleEndian.decode (← take 4))

def word64 : Scan UInt64 := return UInt64.ofNat (LittleEndian.decode (← take 8))

/-- A four-byte length and as many bytes. -/
def sized : Scan Bytes := do take (← word32).toNat

/-- Splits off the next `n` bytes as a window; the scan goes on behind them. -/
def window (n : Nat) : Scan Cursor := fun c =>
  if c.holds n then .ok (c.window n) (c.advance n) else short n c

/-- Scans a window that has been split off, and tells where in it the scan ended. -/
def within (w : Cursor) (p : Scan α) : Scan (α × Cursor) := fun c =>
  match p w with
  | .ok a d => .ok (a, d) c
  | .error e _ => .error e c

/-- A field that is there only behind its tag. -/
def optional (tag : UInt8) (p : Scan α) : Scan (Option α) := do
  if ← accept tag then return some (← p) else return none

/-- The value together with the place it was read from. -/
def located (p : Scan α) : Scan (Nat × α) := return (← position, ← p)

theorem bind_eq_ok {p : Scan α} {f : α → Scan β} {c e : Cursor} {b : β} :
    (p >>= f) c = .ok b e ↔ ∃ a d, p c = .ok a d ∧ f a d = .ok b e := by
  simp only [Bind.bind, EStateM.bind]
  cases p c with
  | ok a d => exact ⟨fun h => ⟨a, d, rfl, h⟩, fun ⟨_, _, same, h⟩ => by cases same; exact h⟩
  | error e d => exact ⟨(nomatch ·), fun ⟨_, _, h, _⟩ => nomatch h⟩

theorem pure_eq_ok {a b : α} {c d : Cursor} :
    (Pure.pure a : Scan α) c = .ok b d ↔ a = b ∧ c = d := by
  simp [Pure.pure, EStateM.pure]

/-- The cursor at the end of a run, whatever its outcome. -/
def stop (p : Scan α) (c : Cursor) : Cursor :=
  match p c with
  | .ok _ d => d
  | .error _ d => d

/-- A scanner moves forward in its window or stays, in success and in failure. -/
def Forward (p : Scan α) : Prop := ∀ c : Cursor, c.Reaches (p.stop c)

theorem Forward.ok {p : Scan α} (h : p.Forward) {c d : Cursor} {a : α} (run : p c = .ok a d) :
    c.Reaches d := by
  simpa [stop, run] using h c

theorem Forward.pure (a : α) : Forward (Pure.pure a : Scan α) := fun c => .refl c

theorem Forward.bind {p : Scan α} {f : α → Scan β} (hp : p.Forward) (hf : ∀ a, (f a).Forward) :
    (p >>= f).Forward := by
  intro c
  have h := hp c
  simp only [stop, Bind.bind, EStateM.bind] at h ⊢
  cases run : p c with
  | ok a d => exact (hp.ok run).trans (hf a d)
  | error e d => simpa only [run] using h

theorem forward_fail (e : BufferError) : Forward (fail e : Scan α) := fun c => .refl c

theorem forward_get : Forward (get : Scan Cursor) := fun c => .refl c

theorem forward_position : position.Forward := forward_get.bind fun c => .pure c.offset

theorem forward_peek : peek.Forward := by
  intro ⟨o, rest⟩
  cases rest <;> exact .refl _

theorem forward_accept (tag : UInt8) : (accept tag).Forward := by
  intro ⟨o, rest⟩
  cases rest with
  | nil => exact .refl _
  | cons b bs =>
    simp only [stop, accept]
    split
    · rename_i run
      split at run
      · cases run
        exact .advance (by simp [Cursor.remaining])
      · cases run
        exact .refl _
    · rename_i run
      split at run <;> cases run

theorem forward_take (n : Nat) : (take n).Forward := by
  intro c
  simp only [stop, take, short]
  by_cases h : c.holds n
  · simpa [h] using Cursor.Reaches.advance (Cursor.holds_iff.mp h)
  · simpa [h] using Cursor.Reaches.refl c

theorem forward_byte : byte.Forward := by
  intro ⟨o, rest⟩
  cases rest with
  | nil => exact .refl _
  | cons b bs => exact .advance (by simp [Cursor.remaining])

theorem forward_word32 : word32.Forward := (forward_take 4).bind fun _ => .pure _

theorem forward_word64 : word64.Forward := (forward_take 8).bind fun _ => .pure _

theorem forward_sized : sized.Forward := forward_word32.bind fun n => forward_take n.toNat

theorem forward_window (n : Nat) : (window n).Forward := by
  intro c
  simp only [stop, window, short]
  by_cases h : c.holds n
  · simpa [h] using Cursor.Reaches.advance (Cursor.holds_iff.mp h)
  · simpa [h] using Cursor.Reaches.refl c

theorem forward_within (w : Cursor) (p : Scan α) : (within w p).Forward := by
  intro c
  simp only [stop, within]
  cases p w <;> exact .refl c

theorem Forward.optional {p : Scan α} (hp : p.Forward) (tag : UInt8) :
    (Scan.optional tag p).Forward := by
  refine (forward_accept tag).bind fun found => ?_
  cases found
  · exact .pure none
  · exact hp.bind fun a => .pure (some a)

theorem Forward.located {p : Scan α} (hp : p.Forward) : (Scan.located p).Forward :=
  forward_position.bind fun o => hp.bind fun a => .pure (o, a)

theorem accept_true {tag : UInt8} {c d : Cursor} (run : accept tag c = .ok true d) :
    d.remaining < c.remaining := by
  obtain ⟨o, rest⟩ := c
  cases rest with
  | nil => cases run
  | cons b bs =>
    simp only [accept] at run
    split at run
    · cases run
      simp [Cursor.remaining, Cursor.advance]
    · cases run

end Scan

end TableWire
