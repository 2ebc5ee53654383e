import TableWire.Event
import TableWire.Scan.Basic
/-!
Scanners that report on their way. The reports are kept in their order beside the result of the
scan, and also when it fails. `Logged.silent` is the scan without them, and each of the operations
has an equation for it.
-/

namespace TableWire

/-- A scanner that reports events. -/
def Logged (α : Type) : Type := Cursor → EStateM.Result BufferError Cursor α × List Event

namespace Logged

variable {α β : Type}

def bind (p : Logged α) (f : α → Logged β) : Logged β := fun c =>
  match p c with
  | (.ok a d, es) =>
    let more := f a d
    (more.1, es ++ more.2)
  | (.error e d, es) => (.error e d, es)

instance : Monad Logged where
  pure a := fun c => (.ok a c, [])
  bind := bind

/-- A plain scanner reports nothing. -/
instance : MonadLift Scan Logged where
  monadLift p := fun c => (p c, [])

def report (e : Event) : Logged Unit := fun c => (.ok () c, [e])

/-- The outcome of a scan from a cursor, with all that is reported on the way to it. -/
def run (p : Logged α) (c : Cursor) : Traced BufferError α :=
  match p c with
  | (.ok a _, es) => { outcome := .ok a, events := es }
  | (.error e _, es) => { outcome := .error e, events := es }

/-- The scan without its reports. -/
def silent (p : Logged α) : Scan α := fun c => (p c).1

@[simp] theorem silent_pure (a : α) : silent (pure a) = pure a := rfl

@[simp] theorem silent_lift (p : Scan α) : silent (monadLift p) = p := rfl

@[simp] theorem silent_report (e : Event) : silent (report e) = pure () := rfl

@[simp] theorem silent_bind (p : Logged α) (f : α → Logged β) :
    silent (p >>= f) = silent p >>= fun a => silent (f a) := by
  funext c
  simp only [silent, Bind.bind, bind, EStateM.bind]
  rcases p c with ⟨r, es⟩
  cases r <;> rfl

theorem bind_of_ok {p : Logged α} {f : α → Logged β} {c d : Cursor} {a : α} {es : List Event}
    (run : p c = (.ok a d, es)) : (p >>= f) c = ((f a d).1, es ++ (f a d).2) := by
  simp only [Bind.bind, bind, run]

theorem bind_of_error {p : Logged α} {f : α → Logged β} {c d : Cursor} {e : BufferError}
    {es : List Event} (run : p c = (.error e d, es)) : (p >>= f) c = (.error e d, es) := by
  simp only [Bind.bind, bind, run]

theorem lift_bind_of_ok {p : Scan α} {f : α → Logged β} {c d : Cursor} {a : α}
    (run : p c = .ok a d) : (monadLift p >>= f : Logged β) c = f a d :=
  bind_of_ok (p := monadLift p) (congrArg (·, []) run)

theorem lift_bind_of_error {p : Scan α} {f : α → Logged β} {c d : Cursor} {e : BufferError}
    (run : p c = .error e d) : (monadLift p >>= f : Logged β) c = (.error e d, []) :=
  bind_of_error (p := monadLift p) (congrArg (·, []) run)

/-- The items behind a cursor, each after its tag, up to the first byte that is another tag. -/
def itemsFrom (tag : UInt8) (p : Logged α) (forward : p.silent.Forward) (c : Cursor) :
    EStateM.Result BufferError Cursor (List α) × List Event :=
  match found : Scan.accept tag c with
  | .error e d => (.error e d, [])
  | .ok false d => (.ok [] d, [])
  | .ok true d =>
    match item : p d with
    | (.error e d', es) => (.error e d', es)
    | (.ok a d', es) =>
      have : d'.remaining < c.remaining :=
        Nat.lt_of_le_of_lt (forward.ok (congrArg Prod.fst item)).remaining_le
          (Scan.accept_true found)
      match itemsFrom tag p forward d' with
      | (.error e d'', es') => (.error e d'', es ++ es')
      | (.ok as d'', es') => (.ok (a :: as) d'', es ++ es')
termination_by c.remaining

def items (tag : UInt8) (p : Logged α) (forward : p.silent.Forward) : Logged (List α) :=
  itemsFrom tag p forward

/-- One turn of the loop. -/
theorem items_eq (tag : UInt8) (p : Logged α) (forward : p.silent.Forward) :
    items tag p forward = (do
      if ← Scan.accept tag then return (← p) :: (← items tag p forward)
      else return []) := by
  funext c
  conv => lhs; rw [items, itemsFrom]
  split
  · next found => rw [lift_bind_of_error found]
  · next found => rw [lift_bind_of_ok found]; rfl
  · next d found =>
    rw [lift_bind_of_ok found, if_pos rfl]
    split
    · next item => exact (bind_of_error item).symm
    · next a d' es item =>
      rw [bind_of_ok item]
      split
      · next more => rw [bind_of_error (p := items tag p forward) more]
      · next as d'' es' more =>
        rw [bind_of_ok (p := items tag p forward) more]
        simp [pure]

theorem silent_ite (b : Bool) (p q : Logged α) :
    silent (if b then p else q) = if b then silent p else silent q := by
  cases b <;> rfl

end Logged

namespace Scan

variable {α : Type}

/-- The items without what is reported about them. -/
def items (tag : UInt8) (p : Logged α) (forward : p.silent.Forward) : Scan (List α) :=
  (Logged.items tag p forward).silent

theorem items_eq (tag : UInt8) (p : Logged α) (forward : p.silent.Forward) :
    items tag p forward = (do
      if ← accept tag then return (← p.silent) :: (← items tag p forward)
      else return []) := by
  conv => lhs; rw [items, Logged.items_eq]
  simp only [Logged.silent_bind, Logged.silent_lift, Logged.silent_ite, Logged.silent_pure]
  rfl

theorem forward_items (tag : UInt8) {p : Logged α} (forward : p.silent.Forward) :
    (items tag p forward).Forward := by
  intro c
  simp only [stop, items, Logged.silent, Logged.items]
  fun_induction Logged.itemsFrom tag p forward c with
  | case1 c e d found => simpa [stop, found] using forward_accept tag c
  | case2 c d found => exact (forward_accept tag).ok found
  | case3 c d found e d' es item =>
    have taken := forward d
    simp only [stop, Logged.silent, item] at taken
    exact ((forward_accept tag).ok found).trans taken
  | case4 c d found a d' es item _ e d'' es' more ih =>
    have taken := forward.ok (congrArg Prod.fst item)
    simp only [more] at ih
    exact (((forward_accept tag).ok found).trans taken).trans ih
  | case5 c d found a d' es item _ as d'' es' more ih =>
    have taken := forward.ok (congrArg Prod.fst item)
    simp only [more] at ih
    exact (((forward_accept tag).ok found).trans taken).trans ih

end Scan

end TableWire
