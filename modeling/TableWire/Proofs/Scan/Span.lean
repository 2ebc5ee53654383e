import TableWire.Bytes.Lemmas
import TableWire.Scan.Logged
/-!
What the scanners read, as bytes that stand between two cursors. Every primitive has one law, which
says exactly when it succeeds, with what, and where it stops.
-/

namespace TableWire

namespace Cursor

/-- The bytes `bs` stand between `c` and `d`. -/
structure Spans (c : Cursor) (bs : Bytes) (d : Cursor) : Prop where
  rest : c.rest = bs ++ d.rest
  offset : d.offset = c.offset + bs.length

/-- The cursor behind `bs`, when `rest` follows. -/
theorem Spans.mk_append (o : Nat) (bs rest : Bytes) :
    Spans ⟨o, bs ++ rest⟩ bs ⟨o + bs.length, rest⟩ := ⟨rfl, rfl⟩

@[simp] theorem spans_nil {c d : Cursor} : c.Spans [] d ↔ d = c := by
  constructor
  · intro ⟨rest, offset⟩
    cases c
    cases d
    simp_all
  · rintro rfl
    exact ⟨rfl, rfl⟩

theorem Spans.trans {c d e : Cursor} {xs ys : Bytes} (h : c.Spans xs d) (h' : d.Spans ys e) :
    c.Spans (xs ++ ys) e where
  rest := by rw [h.rest, h'.rest, List.append_assoc]
  offset := by rw [h'.offset, h.offset, List.length_append, Nat.add_assoc]

theorem spans_append {c e : Cursor} {xs ys : Bytes} :
    c.Spans (xs ++ ys) e ↔ ∃ d, c.Spans xs d ∧ d.Spans ys e := by
  constructor
  · intro h
    refine ⟨⟨c.offset + xs.length, ys ++ e.rest⟩, ⟨?_, rfl⟩, ⟨rfl, ?_⟩⟩
    · rw [h.rest, List.append_assoc]
    · rw [h.offset, List.length_append, Nat.add_assoc]
  · rintro ⟨d, h, h'⟩
    exact h.trans h'

theorem spans_cons {c e : Cursor} {b : UInt8} {bs : Bytes} :
    c.Spans (b :: bs) e ↔ ∃ d, c.Spans [b] d ∧ d.Spans bs e := by
  rw [← spans_append, List.singleton_append]

theorem Spans.right_unique {c d e : Cursor} {bs : Bytes} (h : c.Spans bs d) (h' : c.Spans bs e) :
    d = e := by
  cases d
  cases e
  have rest := h.rest.symm.trans h'.rest
  have offset := h.offset.trans h'.offset.symm
  simp_all

theorem spans_advance {c d : Cursor} {n : Nat} (h : n ≤ c.remaining) :
    d = c.advance n ↔ c.Spans (c.rest.take n) d := by
  have span : c.Spans (c.rest.take n) (c.advance n) :=
    ⟨(List.take_append_drop n c.rest).symm, congrArg (c.offset + ·) (List.length_take_of_le h).symm⟩
  exact ⟨fun e => e ▸ span, fun h' => h'.right_unique span⟩

end Cursor

/-- The next byte is there and is not `tag`. -/
def Avoids (tag : UInt8) : Bytes → Prop
  | [] => False
  | b :: _ => b ≠ tag

@[simp] theorem avoids_nil (tag : UInt8) : ¬ Avoids tag [] := id

@[simp] theorem avoids_cons (tag b : UInt8) (bs : Bytes) : Avoids tag (b :: bs) ↔ b ≠ tag :=
  Iff.rfl

namespace Scan

variable {α β : Type}

theorem bind_of_ok {p : Scan α} {f : α → Scan β} {c d : Cursor} {a : α} (run : p c = .ok a d) :
    (p >>= f) c = f a d := by
  simp only [Bind.bind, EStateM.bind, run]

theorem bind_of_error {p : Scan α} {f : α → Scan β} {c d : Cursor} {e : BufferError}
    (run : p c = .error e d) : (p >>= f) c = .error e d := by
  simp only [Bind.bind, EStateM.bind, run]

theorem bind_of_eq {p q : Scan α} {f : α → Scan β} {c d : Cursor} (same : p c = q d) :
    (p >>= f) c = (q >>= f) d := by
  simp only [Bind.bind, EStateM.bind, same]

theorem map_eq_ok {p : Scan α} {f : α → β} {c d : Cursor} {b : β} :
    (f <$> p) c = .ok b d ↔ ∃ a, p c = .ok a d ∧ f a = b := by
  simp [← bind_pure_comp, bind_eq_ok, pure_eq_ok]

theorem take_eq_ok {n : Nat} {c d : Cursor} {bs : Bytes} :
    take n c = .ok bs d ↔ c.Spans bs d ∧ bs.length = n := by
  by_cases fits : n ≤ c.remaining
  · rw [take, if_pos (Cursor.holds_iff.mpr fits), EStateM.Result.ok.injEq, eq_comm (b := d),
      Cursor.spans_advance fits]
    constructor
    · rintro ⟨rfl, h⟩
      exact ⟨h, List.length_take_of_le fits⟩
    · rintro ⟨h, rfl⟩
      have same : c.rest.take bs.length = bs := by rw [h.rest, List.take_left]
      exact ⟨same, by rwa [same]⟩
  · rw [take, if_neg (Cursor.holds_iff.not.mpr fits)]
    constructor
    · rintro ⟨⟩
    · rintro ⟨h, rfl⟩
      refine absurd ?_ fits
      rw [Cursor.remaining, h.rest, List.length_append]
      exact Nat.le_add_right _ _

theorem byte_eq_ok {c d : Cursor} {b : UInt8} : byte c = .ok b d ↔ c.Spans [b] d := by
  obtain ⟨o, rest⟩ := c
  cases rest with
  | nil =>
    constructor
    · rintro ⟨⟩
    · rintro ⟨⟨⟩, _⟩
  | cons b' bs =>
    rw [byte, EStateM.Result.ok.injEq, eq_comm (b := d), Cursor.spans_advance (Nat.le_add_left 1 _)]
    constructor
    · rintro ⟨rfl, h⟩
      exact h
    · intro h
      cases h.rest
      exact ⟨rfl, h⟩

theorem accept_eq_true {tag : UInt8} {c d : Cursor} :
    accept tag c = .ok true d ↔ c.Spans [tag] d := by
  rw [← byte_eq_ok]
  obtain ⟨o, rest⟩ := c
  cases rest with
  | nil => simp [accept, byte, short]
  | cons b bs => by_cases h : b = tag <;> simp [accept, byte, h]

theorem accept_eq_false {tag : UInt8} {c d : Cursor} :
    accept tag c = .ok false d ↔ d = c ∧ Avoids tag c.rest := by
  obtain ⟨o, rest⟩ := c
  cases rest with
  | nil => simp [accept, short]
  | cons b bs => by_cases h : b = tag <;> simp [accept, h, eq_comm]

theorem accept_eq_ok {tag : UInt8} {c d : Cursor} {b : Bool} :
    accept tag c = .ok b d ↔
      c.Spans (if b then [tag] else []) d ∧ (b = false → Avoids tag d.rest) := by
  cases b with
  | false =>
    simp only [accept_eq_false, Bool.false_eq_true, if_false, Cursor.spans_nil, true_imp_iff]
    exact and_congr_right fun same => by rw [same]
  | true => simp [accept_eq_true]

theorem word32_eq_ok {c d : Cursor} {w : UInt32} :
    word32 c = .ok w d ↔ c.Spans (TableWire.word32 w.toNat) d := by
  simp only [word32, bind_eq_ok, pure_eq_ok, take_eq_ok]
  constructor
  · rintro ⟨bs, _, ⟨h, size⟩, rfl, rfl⟩
    have bound : LittleEndian.decode bs < UInt32.size := by
      simpa [size] using LittleEndian.decode_lt bs
    rw [TableWire.word32, UInt32.toNat_ofNat_of_lt' bound, ← size, LittleEndian.encode_decode]
    exact h
  · intro h
    refine ⟨_, d, ⟨h, length_word32 _⟩, ?_, rfl⟩
    rw [TableWire.word32, LittleEndian.decode_encode_of_lt w.toNat_lt, UInt32.ofNat_toNat]

theorem word64_eq_ok {c d : Cursor} {w : UInt64} :
    word64 c = .ok w d ↔ c.Spans (TableWire.word64 w) d := by
  simp only [word64, bind_eq_ok, pure_eq_ok, take_eq_ok]
  constructor
  · rintro ⟨bs, _, ⟨h, size⟩, rfl, rfl⟩
    have bound : LittleEndian.decode bs < UInt64.size := by
      simpa [size] using LittleEndian.decode_lt bs
    rw [TableWire.word64, UInt64.toNat_ofNat_of_lt' bound, ← size, LittleEndian.encode_decode]
    exact h
  · intro h
    refine ⟨_, d, ⟨h, length_word64 _⟩, ?_, rfl⟩
    rw [TableWire.word64, LittleEndian.decode_encode_of_lt w.toNat_lt, UInt64.ofNat_toNat]

end Scan

/-- Bytes behind their length. -/
def sizedBytes (bs : Bytes) : Bytes := word32 bs.length ++ bs

namespace Scan

variable {α β : Type}

theorem sized_eq_ok {c d : Cursor} {bs : Bytes} :
    sized c = .ok bs d ↔ bs.length < UInt32.size ∧ c.Spans (sizedBytes bs) d := by
  simp only [sized, bind_eq_ok, word32_eq_ok, take_eq_ok, sizedBytes, Cursor.spans_append]
  constructor
  · rintro ⟨w, e, h, h', size⟩
    exact ⟨size ▸ w.toNat_lt, e, size ▸ h, h'⟩
  · rintro ⟨fits, e, h, h'⟩
    refine ⟨UInt32.ofNat bs.length, e, ?_, h', ?_⟩
    all_goals rw [UInt32.toNat_ofNat_of_lt' fits]
    exact h

theorem window_eq_ok {n : Nat} {c d w : Cursor} :
    window n c = .ok w d ↔ c.Spans w.rest d ∧ w.rest.length = n ∧ w.offset = c.offset := by
  have same : window n c = .ok w d ↔ take n c = .ok w.rest d ∧ w.offset = c.offset := by
    simp only [window, take, short]
    cases c.holds n <;> cases w <;> simp [Cursor.window, eq_comm, and_comm, and_assoc]
  rw [same, take_eq_ok, and_assoc]

theorem within_eq_ok {w left c d : Cursor} {p : Scan α} {a : α} :
    within w p c = .ok (a, left) d ↔ p w = .ok a left ∧ d = c := by
  simp only [within]
  cases p w <;> simp [eq_comm, and_assoc]

theorem position_eq_ok {c d : Cursor} {o : Nat} :
    position c = .ok o d ↔ o = c.offset ∧ d = c := by
  rw [position, bind_eq_ok]
  simp [get, getThe, MonadStateOf.get, EStateM.get, pure_eq_ok, eq_comm, and_comm]

theorem located_eq_ok {p : Scan α} {c d : Cursor} {o : Nat} {a : α} :
    located p c = .ok (o, a) d ↔ o = c.offset ∧ p c = .ok a d := by
  simp only [located, bind_eq_ok, position_eq_ok, pure_eq_ok]
  constructor
  · rintro ⟨_, _, ⟨rfl, rfl⟩, _, _, run, ⟨⟩, rfl⟩
    exact ⟨rfl, run⟩
  · rintro ⟨rfl, run⟩
    exact ⟨_, c, ⟨rfl, rfl⟩, a, d, run, rfl, rfl⟩

theorem not_fail_ok {e : BufferError} {c d : Cursor} {a : α} : fail e c ≠ .ok a d := nofun

/-- A turn of the loop leaves its tag behind, so less remains for the next one. -/
theorem remaining_lt_of_turn {p : Scan α} (forward : p.Forward) {tag : UInt8} {c d e : Cursor}
    {a : α} (found : accept tag c = .ok true d) (item : p d = .ok a e) :
    e.remaining < c.remaining :=
  Nat.lt_of_le_of_lt (forward.ok item).remaining_le (accept_true found)

/-- Induction along the loop over items: each turn may rely on what comes behind the item. -/
@[elab_as_elim]
theorem items_induction {p : Scan α} (forward : p.Forward) (tag : UInt8) {motive : Cursor → Prop}
    (turn : ∀ c, (∀ d a e, accept tag c = .ok true d → p d = .ok a e → motive e) → motive c)
    (c : Cursor) : motive c := by
  induction size : c.remaining using Nat.strong_induction_on generalizing c with
  | _ n ih =>
    refine turn c fun d a e found item => ih _ ?_ e rfl
    exact size ▸ remaining_lt_of_turn forward found item

end Scan

end TableWire
