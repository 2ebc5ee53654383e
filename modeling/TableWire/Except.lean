/-!
Computations that may fail, told by their outcomes.
-/

namespace Except

variable {ε α β : Type}

theorem bind_eq_ok {p : Except ε α} {f : α → Except ε β} {b : β} :
    p >>= f = .ok b ↔ ∃ a, p = .ok a ∧ f a = .ok b := by
  cases p <;> simp [bind, Except.bind]

theorem bind_eq_error {p : Except ε α} {f : α → Except ε β} {e : ε} :
    p >>= f = .error e ↔ p = .error e ∨ ∃ a, p = .ok a ∧ f a = .error e := by
  cases p <;> simp [bind, Except.bind]

theorem pure_eq_ok {a b : α} : (pure a : Except ε α) = .ok b ↔ a = b := by
  simp [pure, Except.pure]

theorem map_eq_ok {p : Except ε α} {f : α → β} {b : β} :
    f <$> p = .ok b ↔ ∃ a, p = .ok a ∧ f a = b := by
  cases p <;> simp [Functor.map, Except.map]

theorem map_eq_error {p : Except ε α} {f : α → β} {e : ε} : p.map f = .error e ↔ p = .error e := by
  cases p <;> simp [Except.map]

/-- The error of a computation that fails. -/
def error? : Except ε α → Option ε
  | .ok _ => none
  | .error e => some e

theorem error?_eq_some {p : Except ε α} {e : ε} : p.error? = some e ↔ p = .error e := by
  cases p <;> simp [error?]

theorem error?_eq_none {p : Except ε α} : p.error? = none ↔ ∃ a, p = .ok a := by
  cases p <;> simp [error?]

/-- The first error counts, where the second computation fails alike behind every result. -/
theorem error?_bind {p : Except ε α} {f : α → Except ε β} {o : Option ε}
    (h : ∀ a, (f a).error? = o) : (p >>= f).error? = p.error?.or o := by
  cases p with
  | error e => rfl
  | ok a => exact h a

theorem error?_bind_pure {p : Except ε α} {f : α → β} :
    (p >>= fun a => pure (f a)).error? = p.error? := by
  cases p <;> rfl

end Except
