import TableWire.Proofs.Row.Canonical
/-!
Normal forms leave nothing out that a writer puts in, and spell out nothing that it leaves out. What
a normal form with right checksums holds determines it.
-/

namespace TableWire

theorem eq_of_map_eq {α β : Type} {f : α → β} {p : α → Prop}
    (inj : ∀ x y, p x → p y → f x = f y → x = y) {xs ys : List α} (hx : ∀ x ∈ xs, p x)
    (hy : ∀ y ∈ ys, p y) (same : xs.map f = ys.map f) : xs = ys := by
  induction xs generalizing ys with
  | nil => exact (List.map_eq_nil_iff.mp same.symm).symm
  | cons x xs ih =>
    obtain ⟨y, ys, rfl, head, tail⟩ := List.map_eq_cons_iff.mp same.symm
    obtain ⟨hx, hxs⟩ := List.forall_mem_cons.mp hx
    obtain ⟨hy, hys⟩ := List.forall_mem_cons.mp hy
    rw [inj x y hx hy head.symm, ih hxs hys tail.symm]

namespace Value.Form

/-- The byte of a boolean is zero or one. -/
def Normal : Form → Prop
  | .bool b => b = 0 ∨ b = 1
  | _ => True

theorem Canonical.normal {f : Form} (h : f.Canonical) : f.Normal := by
  cases f with
  | bool b =>
    rw [show b = _ from h, Normal]
    cases decide (b ≠ 0) with
    | false => exact .inl rfl
    | true => exact .inr rfl
  | _ => trivial

theorem Normal.ext {f g : Form} (hf : f.Normal) (hg : g.Normal) (same : f.value = g.value) :
    f = g := by
  cases f with
  | bool b =>
    cases g with
    | bool b' =>
      have zero : b = 0 ↔ b' = 0 := by simpa [value] using same
      rcases hf with rfl | rfl <;> rcases hg with rfl | rfl <;> simp at zero ⊢
    | _ => cases same
  | _ => cases g <;> simp_all [value]

end Value.Form

namespace Cell.Form

structure Normal (f : Form) : Prop where
  value : ∀ v ∈ f.value, v.form.Normal
  stored : f.stored.isSome

theorem Canonical.normal {f : Form} (h : f.Canonical) : f.Normal where
  value v hv := (h.value v hv).1.normal
  stored := by simp [h.stored]

theorem Verified.stored_eq {f : Form} (h : f.Verified) (stored : f.stored.isSome) :
    f.stored = some f.computed := by
  obtain ⟨k, found⟩ := Option.isSome_iff_exists.mp stored
  rw [found, h k found]

theorem Normal.ext {f g : Form} (hf : f.Normal) (hg : g.Normal) (f_verified : f.Verified)
    (g_verified : g.Verified) (same : f.cell = g.cell) : f = g := by
  have f_stored := f_verified.stored_eq hf.stored
  have g_stored := g_verified.stored_eq hg.stored
  obtain ⟨name, v, o, t, k, fits⟩ := f
  obtain ⟨_, v', _, _, k', fits'⟩ := g
  simp only [cell, Cell.mk.injEq] at same
  obtain ⟨rfl, values, rfl, rfl⟩ := same
  obtain rfl : v = v' := by
    cases v with
    | none => exact (Option.map_eq_none_iff.mp values.symm).symm
    | some v =>
      obtain ⟨v', rfl, value⟩ := Option.map_eq_some_iff.mp values.symm
      obtain ⟨form, _⟩ := v
      obtain ⟨form', _⟩ := v'
      obtain rfl : form = form' := (hf.value _ rfl).ext (hg.value _ rfl) value.symm
      rfl
  obtain rfl : k = k' := f_stored.trans g_stored.symm
  rfl

end Cell.Form

namespace Row.Form

structure Normal (f : Form) : Prop where
  primaryKey : f.primaryKey ≠ some []
  attributes : f.attributes ≠ some []
  cells : ∀ c ∈ f.cells, c.Normal
  stored : f.stored.isSome

theorem Canonical.normal {f : Form} (h : f.Canonical) : f.Normal where
  primaryKey := h.primaryKey
  attributes := h.attributes
  cells c hc := (h.cells c hc).normal
  stored := by simp [h.stored]

/-- The group is there exactly when it has cells, so the cells tell it. -/
theorem group_ext {cells cells' : Option (List Cell.Form)} (some_cell : cells ≠ some [])
    (some_cell' : cells' ≠ some []) (normal : ∀ c ∈ cells.getD [], c.Normal ∧ c.Verified)
    (normal' : ∀ c ∈ cells'.getD [], c.Normal ∧ c.Verified)
    (same : (cells.getD []).map (·.cell) = (cells'.getD []).map (·.cell)) : cells = cells' := by
  rw [← Group.form_getD_of_ne some_cell, ← Group.form_getD_of_ne some_cell']
  refine congrArg Group.form (eq_of_map_eq ?_ normal normal' same)
  exact fun c c' h h' => h.1.ext h'.1 h.2 h'.2

theorem Normal.ext {f g : Form} (hf : f.Normal) (hg : g.Normal) (f_verified : f.Verified)
    (g_verified : g.Verified) (same : f.wire.row = g.wire.row) : f = g := by
  have f_cells c hc := And.intro (hf.cells c hc) (f_verified.cells c hc)
  have g_cells c hc := And.intro (hg.cells c hc) (g_verified.cells c hc)
  rw [row_wire, row_wire, Row.mk.injEq] at same
  have primaryKey : f.primaryKey = g.primaryKey := group_ext hf.primaryKey hg.primaryKey
    (fun c hc => f_cells c (List.mem_append_left _ hc))
    (fun c hc => g_cells c (List.mem_append_left _ hc)) same.1
  have attributes : f.attributes = g.attributes := group_ext hf.attributes hg.attributes
    (fun c hc => f_cells c (List.mem_append_right _ hc))
    (fun c hc => g_cells c (List.mem_append_right _ hc)) same.2.1
  obtain ⟨k, f_stored⟩ := Option.isSome_iff_exists.mp hf.stored
  obtain ⟨k', g_stored⟩ := Option.isSome_iff_exists.mp hg.stored
  have f_computed := f_verified.stored k f_stored
  have g_computed := g_verified.stored k' g_stored
  obtain ⟨_, _, _, _⟩ := f
  obtain ⟨_, _, _, _⟩ := g
  cases primaryKey
  cases attributes
  cases same.2.2
  cases f_stored
  cases g_stored
  rw [f_computed, g_computed]
  rfl

end Row.Form

end TableWire
