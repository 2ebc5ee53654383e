import TableWire.Proofs.Scan.Blame
import TableWire.Proofs.Scan.Reading
/-!
Sessions: any number of readers of one buffer, opened at its start, at an offset, or on a window
that another reader has split off, and used in any order. No reader leaves its window, and no window
the buffer.
-/

namespace TableWire

/-- A reader, with the window it was opened on. -/
structure Reader : Type where
  window : Cursor
  cursor : Cursor
  deriving DecidableEq, Repr

namespace Reader

/-- A reader at the start of its window. -/
def enter (w : Cursor) : Reader := ⟨w, w⟩

/-- The offset behind the window. -/
def stop (r : Reader) : Nat := r.window.offset + r.window.remaining

/-- The reader after a reading, and the windows that were opened. -/
def read (r : Reader) (q : Reading) : Reader × List Cursor :=
  match q.scan r.cursor with
  | .ok a d => ({ r with cursor := d }, q.opened a)
  | .error _ d => ({ r with cursor := d }, [])

/-- The reader is in its window, and that is in the buffer. -/
structure Placed (b : Bytes) (r : Reader) : Prop where
  inside : r.window.In b
  reaches : r.window.Reaches r.cursor

/-- The reader stands between the ends of its window, which are in the buffer, and has the bytes of
the buffer from there to the end of the window. -/
structure Safe (b : Bytes) (r : Reader) : Prop where
  start_le : r.window.offset ≤ r.cursor.offset
  le_stop : r.cursor.offset ≤ r.stop
  stop_le : r.stop ≤ b.length
  remaining : r.cursor.remaining = r.stop - r.cursor.offset
  rest : r.cursor.rest = b.extract r.cursor.offset r.stop

/-- The answer tells the bytes of the buffer at the reader, in its window, and the reader is left
behind them unless it only peeked. A window that was opened holds just these bytes. -/
structure Reads (b : Bytes) (r : Reader) (q : Reading) (a : q.Answer) (d : Cursor) : Prop where
  told : q.told a = b.extract r.cursor.offset (r.cursor.offset + (q.told a).length)
  inside : r.cursor.offset + (q.told a).length ≤ r.stop
  moved : d.offset = r.cursor.offset + if q = .peek then 0 else (q.told a).length
  opened : ∀ w ∈ q.opened a, w.offset = r.cursor.offset ∧ w.offset + w.remaining = d.offset ∧
    d.offset ≤ r.stop

section Placed

variable {b : Bytes} {r s : Reader} {q : Reading} {a : q.Answer} {d w : Cursor}

theorem placed_enter (inside : w.In b) : (enter w).Placed b := ⟨inside, .refl w⟩

theorem reaches_read (q : Reading) : r.cursor.Reaches (r.read q).1.cursor := by
  have forward := q.forward_scan r.cursor
  rw [Scan.stop] at forward
  rw [read]
  split <;> simp_all

@[simp] theorem window_read (q : Reading) : (r.read q).1.window = r.window := by
  rw [read]
  split <;> rfl

namespace Placed

theorem cursor_in (h : r.Placed b) : r.cursor.In b := h.inside.reaches h.reaches

theorem offset_add_remaining (h : r.Placed b) : r.cursor.offset + r.cursor.remaining = r.stop :=
  h.reaches.offset_add_remaining

theorem safe (h : r.Placed b) : r.Safe b where
  start_le := by
    have := h.offset_add_remaining
    have := h.reaches.remaining_le
    rw [stop] at *
    omega
  le_stop := h.offset_add_remaining ▸ Nat.le_add_right _ _
  stop_le := h.inside.offset_add_remaining_le
  remaining := Nat.eq_sub_of_add_eq' h.offset_add_remaining
  rest := by
    rw [← h.offset_add_remaining, List.extract_eq_take_drop, Nat.add_sub_cancel_left]
    exact List.prefix_iff_eq_take.mp h.cursor_in.rest

/-- One reading keeps the reader in its window. -/
theorem read (h : r.Placed b) (q : Reading) : (r.read q).1.Placed b where
  inside := by simpa using h.inside
  reaches := by simpa using h.reaches.trans (reaches_read q)

/-- The windows that it opens are in the buffer. -/
theorem in_of_opened (h : r.Placed b) (opened : w ∈ (r.read q).2) : w.In b := by
  rw [Reader.read] at opened
  split at opened
  · next run =>
    obtain ⟨span, same⟩ := Reading.spans_of_opened run opened
    exact h.cursor_in.window span same
  · cases opened

theorem reads (h : r.Placed b) (run : q.scan r.cursor = .ok a d) : r.Reads b q a d := by
  obtain ⟨stands, span⟩ := Reading.told_of_ok run
  have whole := h.offset_add_remaining
  have size := stands.length_le
  rw [Cursor.remaining] at whole
  refine ⟨?_, by omega, ?_, fun w opened => ?_⟩
  · rw [List.extract_eq_take_drop, Nat.add_sub_cancel_left]
    exact List.prefix_iff_eq_take.mp (stands.trans h.cursor_in.rest)
  · rw [span.offset]
    split <;> rfl
  · obtain ⟨span, same⟩ := Reading.spans_of_opened run opened
    have rest := congrArg List.length span.rest
    rw [List.length_append] at rest
    rw [Cursor.remaining, span.offset]
    omega

/-- The tag is accepted when it is the byte at the reader. -/
theorem accepts (h : r.Placed b) {tag : UInt8} {found : Bool}
    (run : Scan.accept tag r.cursor = .ok found d) :
    r.cursor.offset < r.stop ∧ (found ↔ b[r.cursor.offset]? = some tag) := by
  have some_rest : r.cursor.rest ≠ [] := by
    intro none
    rw [Scan.accept, none] at run
    cases run
  obtain ⟨x, xs, rest⟩ := List.exists_cons_of_ne_nil some_rest
  refine ⟨?_, ?_⟩
  · rw [← h.offset_add_remaining, Cursor.remaining]
    exact Nat.lt_add_of_pos_right (List.length_pos_iff.mpr some_rest)
  · rw [h.cursor_in.head rest, Option.some.injEq]
    rw [Scan.accept, rest] at run
    dsimp only at run
    split at run <;> cases run <;> simpa

end Placed

end Placed

end Reader

namespace Session

inductive Action : Type
  | start
  | seek (offset : Nat)
  | read (reader : Nat) (q : Reading)
  deriving DecidableEq, Repr

/-- New readers come behind the others; none is ever closed. -/
def step (b : Bytes) (rs : List Reader) : Action → List Reader
  | .start => rs ++ [.enter (.start b)]
  | .seek offset => rs ++ [.enter (.seek b offset)]
  | .read i q =>
    match rs[i]? with
    | none => rs
    | some r => rs.set i (r.read q).1 ++ (r.read q).2.map .enter

def run (b : Bytes) (as : List Action) : List Reader := as.foldl (step b) []

/-- The readers are still there, in their windows, and none has gone back. -/
def Continues (rs ss : List Reader) : Prop :=
  ∀ (i : Nat) (r : Reader), rs[i]? = some r →
    ∃ s, ss[i]? = some s ∧ s.window = r.window ∧ r.cursor.offset ≤ s.cursor.offset

variable {b : Bytes} {rs ss ts : List Reader} {r : Reader}

theorem in_seek (b : Bytes) (offset : Nat) : (Cursor.seek b offset).In b where
  rest := by
    rcases Nat.le_total offset b.length with inside | past
    · simp [Cursor.seek, Nat.min_eq_left inside]
    · simp [Cursor.seek, List.drop_eq_nil_of_le past]
  offset := Nat.min_le_right _ _

theorem step_placed (h : ∀ r ∈ rs, r.Placed b) (a : Action) : ∀ r ∈ step b rs a, r.Placed b := by
  cases a with
  | start =>
    exact List.forall_mem_append.mpr
      ⟨h, by simpa using Reader.placed_enter (Cursor.in_start b)⟩
  | seek offset =>
    exact List.forall_mem_append.mpr ⟨h, by simpa using Reader.placed_enter (in_seek b offset)⟩
  | read i q =>
    rw [step]
    split
    · exact h
    · next r here =>
      have placed := h r (List.mem_of_getElem? here)
      refine List.forall_mem_append.mpr ⟨fun s hs => ?_, List.forall_mem_map.mpr fun w opened => ?_⟩
      · rcases List.mem_or_eq_of_mem_set hs with old | rfl
        · exact h s old
        · exact placed.read q
      · exact Reader.placed_enter (placed.in_of_opened opened)

theorem foldl_placed (h : ∀ r ∈ rs, r.Placed b) (as : List Action) :
    ∀ r ∈ as.foldl (step b) rs, r.Placed b := by
  induction as generalizing rs with
  | nil => exact h
  | cons a as ih => exact ih (step_placed h a)

/-- However readers are opened and used, they stay in their windows. -/
theorem run_placed (b : Bytes) (as : List Action) : ∀ r ∈ run b as, r.Placed b :=
  foldl_placed (List.forall_mem_nil _) as

theorem Continues.refl (rs : List Reader) : Continues rs rs :=
  fun _ r here => ⟨r, here, rfl, Nat.le_refl _⟩

theorem Continues.trans (h : Continues rs ss) (h' : Continues ss ts) : Continues rs ts := by
  intro i r here
  obtain ⟨s, there, window, forward⟩ := h i r here
  obtain ⟨t, later, window', forward'⟩ := h' i s there
  exact ⟨t, later, window'.trans window, Nat.le_trans forward forward'⟩

theorem Continues.append (h : Continues rs ss) (ts : List Reader) : Continues rs (ss ++ ts) := by
  intro i r here
  obtain ⟨s, there, more⟩ := h i r here
  refine ⟨s, ?_, more⟩
  rwa [List.getElem?_append_left (List.getElem?_eq_some_iff.mp there).1]

theorem continues_set {i : Nat} {s : Reader} (here : rs[i]? = some r) (window : s.window = r.window)
    (forward : r.cursor.offset ≤ s.cursor.offset) : Continues rs (rs.set i s) := by
  intro j t there
  by_cases same : i = j
  · subst same
    cases here.symm.trans there
    exact ⟨s, List.getElem?_set_self (List.getElem?_eq_some_iff.mp here).1, window, forward⟩
  · exact ⟨t, by rwa [List.getElem?_set_ne same], rfl, Nat.le_refl _⟩

theorem step_continues (b : Bytes) (rs : List Reader) (a : Action) :
    Continues rs (step b rs a) := by
  cases a with
  | start => exact (Continues.refl rs).append _
  | seek offset => exact (Continues.refl rs).append _
  | read i q =>
    rw [step]
    split
    · exact .refl rs
    · next r here =>
      refine (continues_set here (Reader.window_read q) ?_).append _
      have reaches := Reader.reaches_read (r := r) q
      have := reaches.offset_add_remaining
      have := reaches.remaining_le
      omega

theorem foldl_continues (b : Bytes) (rs : List Reader) (as : List Action) :
    Continues rs (as.foldl (step b) rs) := by
  induction as generalizing rs with
  | nil => exact .refl rs
  | cons a as ih => exact (step_continues b rs a).trans (ih _)

theorem run_continues (b : Bytes) (as more : List Action) :
    Continues (run b as) (run b (as ++ more)) := by
  rw [run, run, List.foldl_append]
  exact foldl_continues b _ more

end Session

end TableWire
