import TableWire.Buffer.Emit
import TableWire.Proofs.Scan.Span
/-!
What the writers append. Every law has the buffer as it was and as it is after a success.
-/

namespace TableWire.Emit

variable {α β : Type} {out out' : Array UInt8} {u : Unit}

theorem bind_eq_ok {p : Emit α} {f : α → Emit β} {b : β} :
    (p >>= f) out = .ok b out' ↔ ∃ a mid, p out = .ok a mid ∧ f a mid = .ok b out' := by
  simp only [Bind.bind, EStateM.bind]
  cases p out <;> simp

theorem pure_eq_ok {a b : α} : (pure a : Emit α) out = .ok b out' ↔ a = b ∧ out' = out := by
  simp [pure, EStateM.pure, eq_comm]

theorem map_eq_ok {p : Emit α} {f : α → β} {b : β} :
    (f <$> p) out = .ok b out' ↔ ∃ a, p out = .ok a out' ∧ f a = b := by
  simp only [← bind_pure_comp, bind_eq_ok, pure_eq_ok]
  simp

theorem discard_eq_ok {p : Emit α} {u : PUnit} :
    discard p out = .ok u out' ↔ ∃ a, p out = .ok a out' := by
  change (Function.const α PUnit.unit <$> p) out = _ ↔ _
  simp [map_eq_ok]

theorem append_append (out : Array UInt8) (xs ys : Bytes) :
    out ++ xs ++ ys = out ++ (xs ++ ys) := by
  apply Array.ext'
  simp

theorem bytes_eq_ok {bs : Bytes} : bytes bs out = .ok u out' ↔ out' = out ++ bs := by
  simp [bytes, eq_comm]

theorem bytes_nil : bytes [] = pure () := by
  funext out
  simp [bytes, pure, EStateM.pure]

theorem byte_eq_ok {b : UInt8} : byte b out = .ok u out' ↔ out' = out ++ [b] := bytes_eq_ok

theorem sized_eq_ok {field : SizedField} {bs : Bytes} :
    sized field bs out = .ok u out' ↔ bs.length ≤ maxLength ∧ out' = out ++ sizedBytes bs := by
  by_cases fits : bs.length ≤ maxLength
  · simp [sized, fits, bytes_eq_ok, sizedBytes]
  · simp [sized, fits, throw, throwThe, MonadExceptOf.throw, EStateM.throw]

theorem nothing_eq_ok : (pure () : Emit Unit) out = .ok u out' ↔ out' = out ++ ([] : Bytes) :=
  bytes_nil ▸ bytes_eq_ok

theorem ofExcept_eq_ok {e : Except BufferError α} {a : α} :
    (MonadExcept.ofExcept e : Emit α) out = .ok a out' ↔ e = .ok a ∧ out' = out := by
  cases e with
  | ok b => simp [MonadExcept.ofExcept, pure_eq_ok]
  | error err =>
    simp [MonadExcept.ofExcept, throw, throwThe, MonadExceptOf.throw, EStateM.throw]

theorem output_eq_ok {e : Emit α} {bs : Bytes} :
    e.output = .ok bs ↔ ∃ a, e #[] = .ok a bs.toArray := by
  simp only [output]
  cases e #[] with
  | ok a out =>
    constructor
    · rintro ⟨⟩
      exact ⟨a, rfl⟩
    · rintro ⟨_, ⟨⟩⟩
      rfl
  | error e out => simp

end TableWire.Emit
