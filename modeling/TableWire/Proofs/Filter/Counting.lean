import TableWire.Filter.Grammar
/-!
What the readers of filters count on their way. Behind a filter its depth has been counted, and the
NOTs that are open are those that were open in front of it (`Counts`). So the checks of the counters
are checks of the depth, and the one behind the operand of a NOT never fails.
-/

namespace TableWire.Filter

theorem depth_not (f : Filter String) : f.not.depth = f.depth + 1 := by
  simp [not, depth, depthAll]

theorem depth_join (k : Connective) (f g : Filter String) :
    (node k [f, g]).depth = max f.depth g.depth + 1 := by
  simp [depth, depthAll]

theorem deepen_eq_ok {o levels n : Nat} :
    deepen o levels = .ok n ↔ levels < maxDepth ∧ n = levels + 1 := by
  by_cases full : maxDepth ≤ levels
  · simp [deepen, full, Nat.not_lt.mpr full]
  · simp [deepen, full, Nat.lt_of_not_le full, eq_comm]

theorem deepen_eq_error {o levels : Nat} {e : FilterError} :
    deepen o levels = .error e ↔ maxDepth ≤ levels ∧ e = .malformed o .tooDeep := by
  by_cases full : maxDepth ≤ levels <;> simp [deepen, full, eq_comm]

/-- The filter with the counters that belong behind it, when `nots` were open in front of it. -/
def counted (nots : Nat) (f : Filter String) : Counted := ⟨f, f.depth, nots⟩

theorem counted_inj {nots : Nat} {f g : Filter String} : counted nots f = counted nots g ↔ f = g :=
  ⟨congrArg Counted.filter, congrArg (counted nots)⟩

/-- Behind a filter, the reader has counted the depth of the filter, and no more NOTs are open than
were open before. -/
def Counts (p : CountingReader) : Prop :=
  ∀ nots ts r rest, p nots ts = .ok (r, rest) → ∃ f, r = counted nots f

variable {nots : Nat} {ts rest : List Lexeme} {r : Counted}

theorem exists_clause_of_readClause {stop : Nat} {f : Filter String}
    (run : readClause stop ts = .ok (f, rest)) : ∃ c, f = .clause c := by
  obtain ⟨_, _, run⟩ := Except.bind_eq_ok.mp run
  obtain ⟨_, _, run⟩ := Except.bind_eq_ok.mp run
  obtain ⟨_, _, run⟩ := Except.bind_eq_ok.mp run
  obtain ⟨_, _, run⟩ := Except.bind_eq_ok.mp run
  obtain ⟨⟨passIfMissing, ts'⟩, _, run⟩ := Except.bind_eq_ok.mp run
  dsimp only at run
  split at run <;> cases run <;> exact ⟨_, rfl⟩

theorem counts_readNegation (stop : Nat) : Counts (readNegation stop) := by
  intro nots ts r rest run
  fun_induction readNegation stop nots ts generalizing r rest with
  | case1 nots o ts ih =>
    obtain ⟨opened, raised, run⟩ := Except.bind_eq_ok.mp run
    obtain ⟨⟨operand, ts'⟩, onward, run⟩ := Except.bind_eq_ok.mp run
    obtain ⟨depth, deeper, run⟩ := Except.bind_eq_ok.mp run
    obtain ⟨g, rfl⟩ := ih opened operand ts' onward
    obtain ⟨_, rfl⟩ := deepen_eq_ok.mp raised
    obtain ⟨_, rfl⟩ := deepen_eq_ok.mp deeper
    obtain ⟨rfl, rfl⟩ := Prod.mk.inj (Except.pure_eq_ok.mp run)
    exact ⟨g.not, by simp [counted, depth_not]⟩
  | case2 nots ts _ =>
    obtain ⟨⟨f, ts'⟩, read, run⟩ := Except.bind_eq_ok.mp run
    obtain ⟨c, rfl⟩ := exists_clause_of_readClause read
    obtain ⟨rfl, rfl⟩ := Prod.mk.inj (Except.pure_eq_ok.mp run)
    exact ⟨.clause c, by simp [counted, depth]⟩

section Chain

variable {k : Connective} {p : CountingReader} {consumes : ∀ nots, Consumes (p nots)}

/-- The counters of two operands give those of the two joined. -/
theorem counted_join (nots : Nat) (f g : Filter String) :
    (⟨node k [f, g], max f.depth g.depth + 1, nots⟩ : Counted) = counted nots (node k [f, g]) := by
  rw [counted, depth_join]

theorem Counts.chainFrom (counts : Counts p) {f : Filter String}
    (run : readChainFrom k p consumes (counted nots f) ts = .ok (r, rest)) :
    ∃ g, r = counted nots g := by
  generalize begun : counted nots f = left at run
  fun_induction readChainFrom k p consumes left ts generalizing f with
  | case1 => cases run
  | case2 => cases run
  | case3 left o ts right ts' operand shorter depth deeper ih =>
    subst begun
    obtain ⟨g, rfl⟩ := counts _ _ _ _ operand
    obtain ⟨_, rfl⟩ := deepen_eq_ok.mp deeper
    exact ih (counted_join nots f g).symm run
  | case4 =>
    cases run
    exact ⟨f, begun.symm⟩
  | case5 =>
    cases run
    exact ⟨f, begun.symm⟩

theorem Counts.chain (counts : Counts p) : Counts (readChain k p consumes) := by
  intro nots ts r rest run
  obtain ⟨⟨left, ts'⟩, first, onward⟩ := Except.bind_eq_ok.mp run
  obtain ⟨f, rfl⟩ := counts _ _ _ _ first
  exact counts.chainFrom onward

end Chain

theorem counts_readConjunction (stop : Nat) : Counts (readConjunction stop) :=
  (counts_readNegation stop).chain

theorem counts_readDisjunction (stop : Nat) : Counts (readDisjunction stop) :=
  (counts_readConjunction stop).chain

end TableWire.Filter
