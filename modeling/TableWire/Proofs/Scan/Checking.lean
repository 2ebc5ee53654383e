import TableWire.Proofs.Scan.Layout
/-!
Scanners that compare stored checksums, beside those that do not. The comparison only ever adds a
mismatch (`Scan.Adds`), and it is the first one among the checksums that are met (`Scan.Settles`).
-/

namespace TableWire

/-- A stored checksum, with its place and with what its content calls for. -/
structure Checksum : Type where
  scope : Scope
  stored : UInt8
  computed : UInt8
  offset : Nat
  deriving DecidableEq, Repr

namespace Checksum

def Disagrees (k : Checksum) : Prop := k.stored ≠ k.computed

instance (k : Checksum) : Decidable k.Disagrees := inferInstanceAs (Decidable (_ ≠ _))

/-- The checksum apart from its place. -/
def content (k : Checksum) : Scope × UInt8 × UInt8 := (k.scope, k.stored, k.computed)

def error (k : Checksum) : BufferError := .checksumMismatch k.scope k.stored k.computed k.offset

/-- The checksum that ends at `stop`, if one is stored there. -/
def endingAt (stop : Nat) (scope : Scope) (computed : UInt8) (stored : Option UInt8) :
    List Checksum :=
  stored.toList.map fun k => ⟨scope, k, computed, stop - 1⟩

theorem content_endingAt {stop : Nat} {scope : Scope} {computed : UInt8} {stored : Option UInt8} :
    (endingAt stop scope computed stored).map content =
      stored.toList.map fun k => (scope, k, computed) := by
  simp [endingAt, content]

theorem endingAt_agree {stop : Nat} {scope : Scope} {computed : UInt8} {stored : Option UInt8} :
    (∀ k ∈ endingAt stop scope computed stored, ¬ k.Disagrees) ↔ ∀ k ∈ stored, k = computed := by
  cases stored <;> simp [endingAt, Disagrees]

/-- The checksums stand in the bytes, which begin at `start`, one behind the other. -/
structure StandIn (ks : List Checksum) (start : Nat) (bs : Bytes) : Prop where
  ascending : ks.Pairwise fun k l => k.offset < l.offset
  stored : ∀ k ∈ ks, start ≤ k.offset ∧ bs[k.offset - start]? = some k.stored

namespace StandIn

variable {ks ls : List Checksum} {start : Nat} {bs cs : Bytes}

theorem nil (start : Nat) (bs : Bytes) : StandIn [] start bs := ⟨.nil, nofun⟩

theorem lt_of_mem (h : StandIn ks start bs) {k : Checksum} (hk : k ∈ ks) :
    k.offset < start + bs.length := by
  obtain ⟨from_start, stored⟩ := h.stored k hk
  obtain ⟨inside, _⟩ := List.getElem?_eq_some_iff.mp stored
  omega

theorem append (h : StandIn ks start bs) (h' : StandIn ls (start + bs.length) cs) :
    StandIn (ks ++ ls) start (bs ++ cs) where
  ascending := by
    refine List.pairwise_append.mpr ⟨h.ascending, h'.ascending, fun k hk l hl => ?_⟩
    exact Nat.lt_of_lt_of_le (h.lt_of_mem hk) (h'.stored l hl).1
  stored k hk := by
    rcases List.mem_append.mp hk with hk | hk
    · obtain ⟨from_start, stored⟩ := h.stored k hk
      have inside := h.lt_of_mem hk
      exact ⟨from_start, by rwa [List.getElem?_append_left (by omega)]⟩
    · obtain ⟨from_end, stored⟩ := h'.stored k hk
      refine ⟨by omega, ?_⟩
      rwa [List.getElem?_append_right (by omega), Nat.sub_sub]

theorem behind (h : StandIn ls (start + bs.length) cs) : StandIn ls start (bs ++ cs) :=
  (nil start bs).append h

/-- A checksum behind its tag. -/
theorem endingAt {tag : UInt8} {scope : Scope} {computed : UInt8} {stored : Option UInt8}
    {stop : Nat} (ends : stop = start + (tagged tag (fun k => [k]) stored).length) :
    StandIn (Checksum.endingAt stop scope computed stored) start
      (tagged tag (fun k => [k]) stored) := by
  subst ends
  cases stored with
  | none => exact nil _ _
  | some k =>
    refine ⟨List.pairwise_singleton _ _, fun l hl => ?_⟩
    obtain rfl := List.mem_singleton.mp hl
    simp [tagged]

/-- The first of the checksums that disagree has the least offset of them. -/
theorem le_of_find? (h : StandIn ks start bs) {k : Checksum}
    (first : ks.find? (·.Disagrees) = some k) :
    ∀ l ∈ ks, l.Disagrees → k.offset ≤ l.offset := by
  obtain ⟨_, before, after, rfl, agree⟩ := List.find?_eq_some_iff_append.mp first
  intro l hl disagrees
  rcases List.mem_append.mp hl with hl | hl
  · exact absurd disagrees (by simpa using agree l hl)
  · rcases List.mem_cons.mp hl with rfl | hl
    · exact Nat.le_refl _
    · have ascending := (List.pairwise_append.mp h.ascending).2.1
      exact Nat.le_of_lt ((List.pairwise_cons.mp ascending).1 l hl)

end StandIn

end Checksum

namespace Scan

variable {α β : Type}

/-- The run stopped at a checksum. -/
def Mismatched (r : EStateM.Result BufferError Cursor α) : Prop :=
  ∃ scope stored computed offset d, r = .error (.checksumMismatch scope stored computed offset) d

/-- From this place, `q` does what `p` does, or stops at a checksum. -/
def AddsAt (p q : Scan α) (c : Cursor) : Prop := q c = p c ∨ Mismatched (q c)

def Adds (p q : Scan α) : Prop := ∀ c, AddsAt p q c

theorem Adds.refl (p : Scan α) : Adds p p := fun _ => .inl rfl

theorem AddsAt.bind {p q : Scan α} {f g : α → Scan β} {c : Cursor} (h : AddsAt p q c)
    (hf : ∀ a d, p c = .ok a d → AddsAt (f a) (g a) d) : AddsAt (p >>= f) (q >>= g) c := by
  rcases h with same | ⟨_, _, _, _, _, failed⟩
  · cases run : p c with
    | ok a d =>
      rw [AddsAt, bind_of_ok run, bind_of_ok (same.trans run)]
      exact hf a d run
    | error e d =>
      left
      rw [bind_of_error run, bind_of_error (same.trans run)]
  · exact .inr ⟨_, _, _, _, _, bind_of_error failed⟩

theorem Adds.bind {p q : Scan α} {f g : α → Scan β} (h : Adds p q) (hf : ∀ a, Adds (f a) (g a)) :
    Adds (p >>= f) (q >>= g) :=
  fun c => (h c).bind fun a d _ => hf a d

theorem Adds.items {p q : Logged α} (h : Adds p.silent q.silent) (tag : UInt8)
    (hp : p.silent.Forward) (hq : q.silent.Forward) :
    Adds (Scan.items tag p hp) (Scan.items tag q hq) := by
  intro c
  induction c using items_induction hp tag with
  | turn c ih =>
    rw [items_eq tag p, items_eq tag q]
    refine (Adds.refl (accept tag) c).bind fun found d run => ?_
    cases found
    · exact .inl rfl
    · refine (h d).bind fun a e item => ?_
      exact (ih d a e run item).bind fun as e' _ => .inl rfl

/-- The run ends well unless one of the checksums disagrees, and it blames the first that does. -/
def Settles (r : EStateM.Result BufferError Cursor α) (ks : List Checksum) (a : α) (d : Cursor) :
    Prop :=
  match ks.find? (·.Disagrees) with
  | none => r = .ok a d
  | some k => ∃ d', r = .error k.error d'

namespace Settles

variable {p : Scan α} {f : α → Scan β} {c d e : Cursor} {a : α} {b : β} {ks ls : List Checksum}

theorem of_ok (run : p c = .ok a d) : Settles (p c) [] a d := run

theorem bind (h : Settles (p c) ks a d) (h' : Settles (f a d) ls b e) :
    Settles ((p >>= f) c) (ks ++ ls) b e := by
  rw [Settles, List.find?_append]
  rw [Settles] at h
  cases first : ks.find? (·.Disagrees) with
  | none =>
    rw [first] at h
    rw [Option.none_or, bind_of_ok h]
    exact h'
  | some k =>
    rw [first] at h
    obtain ⟨_, failed⟩ := h
    exact ⟨_, bind_of_error failed⟩

/-- What comes behind meets no more checksums. -/
theorem bind_ok (h : Settles (p c) ks a d) (run : f a d = .ok b e) :
    Settles ((p >>= f) c) ks b e := by
  simpa using h.bind (of_ok run)

theorem items_cons {q : Logged α} {tag : UInt8} {forward : q.silent.Forward} {as : List α}
    {e' : Cursor} (found : c.Spans [tag] e) (first : Settles (q.silent e) ks a d)
    (others : Settles (Scan.items tag q forward d) ls as e') :
    Settles (Scan.items tag q forward c) (ks ++ ls) (a :: as) e' := by
  rw [items_eq, bind_of_ok (accept_eq_true.mpr found), if_pos rfl]
  exact first.bind (others.bind_ok rfl)

theorem of_agree {r : EStateM.Result BufferError Cursor α} (h : Settles r ks a d)
    (agree : ∀ k ∈ ks, ¬ k.Disagrees) : r = .ok a d := by
  have none : ks.find? (·.Disagrees) = none := by simpa using agree
  rwa [Settles, none] at h

theorem of_disagree {r : EStateM.Result BufferError Cursor α} (h : Settles r ks a d)
    (disagree : ¬ ∀ k ∈ ks, ¬ k.Disagrees) :
    ∃ k d', ks.find? (·.Disagrees) = some k ∧ r = .error k.error d' := by
  rw [Settles] at h
  cases first : ks.find? (·.Disagrees) with
  | none => exact absurd (by simpa using first) disagree
  | some k =>
    rw [first] at h
    obtain ⟨d', failed⟩ := h
    exact ⟨k, d', rfl, failed⟩

end Settles

end Scan

end TableWire
