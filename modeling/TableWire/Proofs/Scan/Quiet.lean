import TableWire.Proofs.Scan.Reading
/-!
What scanners leave unreported. Only a stored checksum is reported, and only when the scan fails for
it: a scan that succeeds has reported nothing (`Logged.Discreet`), so whatever a failed run reports
is reported by the scanner that failed.
-/

namespace TableWire

/-- The error is not for a checksum. -/
def BufferError.Quiet (e : BufferError) : Prop :=
  ∀ scope stored computed offset, e ≠ .checksumMismatch scope stored computed offset

theorem Cursor.Lacks.quiet {c : Cursor} {e : BufferError} (h : c.Lacks e) : e.Quiet := by
  obtain ⟨needed, _, rfl⟩ := h
  exact nofun

namespace Scan

variable {α β : Type}

/-- However the scanner fails, it does so quietly. -/
def Quiet (p : Scan α) : Prop := ∀ c e d, p c = .error e d → e.Quiet

theorem quiet_reading (q : Reading) : q.scan.Quiet :=
  fun _ _ _ run => (Reading.lacks_of_error run).1.quiet

theorem quiet_peek : peek.Quiet := quiet_reading .peek

theorem quiet_accept (tag : UInt8) : (accept tag).Quiet := quiet_reading (.accept tag)

theorem quiet_byte : byte.Quiet := quiet_reading .byte

theorem quiet_word32 : word32.Quiet := quiet_reading .word32

theorem quiet_word64 : word64.Quiet := quiet_reading .word64

theorem quiet_sized : sized.Quiet := quiet_reading .sized

theorem quiet_window (n : Nat) : (window n).Quiet := quiet_reading (.window n)

theorem quiet_pure (a : α) : Quiet (pure a : Scan α) := fun _ _ _ run => absurd run not_pure_error

theorem quiet_fail {e : BufferError} (quiet : e.Quiet) : Quiet (fail e : Scan α) := by
  intro c e' d run
  cases run
  exact quiet

theorem quiet_position : position.Quiet := fun _ _ _ run => nomatch run

theorem Quiet.bind {p : Scan α} {f : α → Scan β} (h : p.Quiet) (h' : ∀ a, (f a).Quiet) :
    (p >>= f).Quiet := by
  intro c e d run
  rcases bind_eq_error.mp run with failed | ⟨a, c', _, failed⟩
  · exact h c e d failed
  · exact h' a c' e d failed

theorem Quiet.map {p : Scan α} (h : p.Quiet) (f : α → β) : (f <$> p).Quiet := by
  rw [← bind_pure_comp]
  exact h.bind fun a => quiet_pure (f a)

theorem Quiet.located {p : Scan α} (h : p.Quiet) : (Scan.located p).Quiet :=
  quiet_position.bind fun o => h.bind fun a => quiet_pure (o, a)

theorem Quiet.within {p : Scan α} (h : p.Quiet) (w : Cursor) : (Scan.within w p).Quiet := by
  intro c e d run
  rw [Scan.within] at run
  split at run
  · cases run
  · next failed =>
    cases run
    exact h w _ _ failed

theorem Quiet.optional {p : Scan α} (h : p.Quiet) (tag : UInt8) : (Scan.optional tag p).Quiet := by
  refine (quiet_accept tag).bind fun found => ?_
  cases found
  · exact quiet_pure none
  · exact h.bind fun a => quiet_pure (some a)

end Scan

namespace Logged

variable {α β : Type} {p : Logged α} {q : Scan α} {f : α → Logged β} {c d : Cursor}
  {e : BufferError} {es : List Event}

theorem silent_of_eq {r : EStateM.Result BufferError Cursor α} (run : p c = (r, es)) :
    p.silent c = r := congrArg Prod.fst run

def DiscreetAt (p : Logged α) (c : Cursor) : Prop := ∀ a d es, p c = (.ok a d, es) → es = []

/-- A scan that succeeds has reported nothing. -/
def Discreet (p : Logged α) : Prop := ∀ c, p.DiscreetAt c

theorem discreet_pure (a : α) : Discreet (pure a : Logged α) :=
  fun _ _ _ _ run => (congrArg Prod.snd run).symm

theorem discreet_lift (q : Scan α) : Discreet (monadLift q : Logged α) :=
  fun _ _ _ _ run => (congrArg Prod.snd run).symm

theorem DiscreetAt.bind (h : p.DiscreetAt c)
    (h' : ∀ a d, p.silent c = .ok a d → (f a).DiscreetAt d) : (p >>= f).DiscreetAt c := by
  intro b d es run
  rcases first : p c with ⟨r, es₁⟩
  cases r with
  | ok a c' =>
    rw [bind_of_ok first] at run
    obtain rfl := h a c' es₁ first
    have second : f a c' = (.ok b d, (f a c').2) := Prod.ext (Prod.mk.inj run).1 rfl
    rw [← (Prod.mk.inj run).2, h' a c' (silent_of_eq first) b d _ second]
    rfl
  | error e c' =>
    rw [bind_of_error first] at run
    cases run

theorem Discreet.bind (h : p.Discreet) (h' : ∀ a, (f a).Discreet) : (p >>= f).Discreet :=
  fun c => (h c).bind fun a d _ => h' a d

/-- However many items are found, nothing is reported about them. -/
theorem Discreet.items (h : p.Discreet) (tag : UInt8) (forward : p.silent.Forward) :
    (Logged.items tag p forward).Discreet := by
  intro c
  induction c using Scan.items_induction forward tag with
  | turn c ih =>
    rw [items_eq]
    refine (discreet_lift (Scan.accept tag) c).bind fun found d run => ?_
    cases found
    · exact discreet_pure [] d
    · refine (h d).bind fun a e item => ?_
      exact (ih d a e run item).bind fun as e' _ => discreet_pure (a :: as) e'

/-- What a run reports when it fails is reported by the step that fails. -/
theorem Discreet.bind_eq_error (h : p.Discreet) : (p >>= f) c = (.error e d, es) ↔
    p c = (.error e d, es) ∨ ∃ a c', p.silent c = .ok a c' ∧ f a c' = (.error e d, es) := by
  rcases first : p c with ⟨r, es₁⟩
  have silent := silent_of_eq first
  cases r with
  | ok a c' =>
    obtain rfl := h c a c' es₁ first
    simp [bind_of_ok first, silent]
  | error e' c' => simp [bind_of_error first, silent]

theorem lift_bind_eq_error : (monadLift q >>= f : Logged β) c = (.error e d, es) ↔
    (q c = .error e d ∧ es = []) ∨ ∃ a c', q c = .ok a c' ∧ f a c' = (.error e d, es) := by
  rw [(discreet_lift q).bind_eq_error]
  refine or_congr_left ⟨fun run => ?_, fun ⟨failed, quiet⟩ => ?_⟩
  · exact ⟨silent_of_eq run, (congrArg Prod.snd run).symm⟩
  · exact Prod.ext failed quiet.symm

theorem not_pure_error {a : α} : (pure a : Logged α) c ≠ (.error e d, es) := nofun

end Logged

end TableWire
