import TableWire.Bytes.Hex
import TableWire.Record.Kind
/-!
What the library reports while it works, and results that carry such reports.
-/

namespace TableWire

inductive Event : Type
  | cellMismatch (name : String) (stored computed : UInt8) (offset : Nat)
  | rowMismatch (stored computed : UInt8) (offset : Nat)
  | decoded (rows size : Nat)
  | compiled (kind : RecordKind) (size : Nat)
  deriving DecidableEq, Repr

namespace Event

def level : Event → String
  | .cellMismatch .. | .rowMismatch .. => "WARN"
  | .decoded .. => "DEBUG"
  | .compiled .. => "TRACE"

def text : Event → String
  | .cellMismatch name stored computed offset =>
    s!"event=checksum_mismatch scope=cell name={name} " ++
      s!"stored={Hex.ofByte stored} computed={Hex.ofByte computed} offset={offset}"
  | .rowMismatch stored computed offset =>
    "event=checksum_mismatch scope=row " ++
      s!"stored={Hex.ofByte stored} computed={Hex.ofByte computed} offset={offset}"
  | .decoded rows size => s!"event=plainbuffer_decoded rows={rows} bytes={size}"
  | .compiled kind size => s!"event=filter_compiled kind={kind.text} bytes={size}"

/-- The event as a line of a log. -/
def line (e : Event) : String := s!"{e.level} tablestore_codec {e.text}"

end Event

/-- An outcome, and the events reported on the way to it. -/
structure Traced (ε α : Type) : Type where
  outcome : Except ε α
  events : List Event := []

namespace Traced

variable {ε ε' α β : Type}

def map (f : α → β) (t : Traced ε α) : Traced ε β := { t with outcome := t.outcome.map f }

def mapError (f : ε → ε') (t : Traced ε α) : Traced ε' α :=
  { t with outcome := t.outcome.mapError f }

/-- What has been reported stays reported, whatever comes behind it. -/
def bind (t : Traced ε α) (f : α → Traced ε β) : Traced ε β :=
  match t.outcome with
  | .ok a =>
    let more := f a
    { more with events := t.events ++ more.events }
  | .error e => { outcome := .error e, events := t.events }

instance : Monad (Traced ε) where
  pure a := { outcome := .ok a }
  map := map
  bind := bind

/-- A plain computation reports nothing. -/
instance : MonadLift (Except ε) (Traced ε) where
  monadLift r := { outcome := r }

def report (e : Event) : Traced ε Unit := { outcome := .ok (), events := [e] }

@[simp] theorem outcome_pure (a : α) : (pure a : Traced ε α).outcome = pure a := rfl

@[simp] theorem outcome_lift (r : Except ε α) : (monadLift r : Traced ε α).outcome = r := rfl

@[simp] theorem outcome_report (e : Event) : (report e : Traced ε Unit).outcome = pure () := rfl

@[simp] theorem outcome_bind (t : Traced ε α) (f : α → Traced ε β) :
    (t >>= f).outcome = t.outcome >>= fun a => (f a).outcome := by
  simp only [Bind.bind, bind, Except.bind]
  cases t.outcome <;> rfl

@[simp] theorem outcome_mapError (t : Traced ε α) (f : ε → ε') :
    (t.mapError f).outcome = t.outcome.mapError f := rfl

@[simp] theorem lift_ok_bind (a : α) (f : α → Traced ε β) :
    (monadLift (Except.ok a : Except ε α) : Traced ε α) >>= f = f a := rfl

end Traced

end TableWire
