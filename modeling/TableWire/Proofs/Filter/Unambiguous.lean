import TableWire.Proofs.Filter.Blame
/-!
The grammar of filter texts is unambiguous: tokens spell one filter at most. So the tokens of a
filter are read as this filter, or they are refused because it is too deep, and for no other reason.
-/

namespace TableWire

theorem Token.flag_injective : Function.Injective Token.flag := by
  intro a b
  cases a <;> cases b <;> decide

theorem Token.keyword_injective : Function.Injective Token.keyword := by
  intro k l same
  have read := congrArg Connective.ofText? (Token.word.inj same)
  simpa using read

theorem Clause.tokens_injective : Function.Injective Clause.tokens := by
  rintro ⟨column, comparison, operand, passIfMissing, latest⟩
    ⟨column', comparison', operand', passIfMissing', latest'⟩ same
  simp only [tokens, List.cons.injEq, Token.word.injEq, Token.operator.injEq, true_and] at same
  obtain ⟨rfl, symbol, rfl, flag, flags⟩ := same
  obtain rfl : comparison' = comparison := by
    have read := congrArg Comparison.ofText? symbol
    simpa using read.symm
  obtain rfl := Token.flag_injective flag
  have second := congrArg List.head? (Token.flag_injective.list_map flags)
  simpa using second

namespace Filter

open Lexeme

section Chain

variable {K : List Connective} {k : Connective} {s s' s'' : Stage} {ts us vs : List Token}
  {P : List Token → Filter String → Prop} {f g : Filter String}

/-- Tokens after which a filter may end only go on with the connectives of the path. -/
theorem Path.mem_of_keyword (before : Path K s ts s') (complete : s'.Complete)
    (path : Path K s (ts ++ .keyword k :: us) s'') : k ∈ K := by
  cases before.of_append path with
  | cons step _ =>
    generalize same : Token.keyword k = t at step
    cases step with
    | part next => exact absurd (same ▸ next) complete.not_next
    | join _ mem => exact Token.keyword_injective same ▸ mem

/-- What follows a chain at its connective is no chain up to another place where it stands. -/
theorem Chain.not_inside (h : Recognises K P) (new : k ∉ K) (chain : Chain k P ts f)
    (operand : P (us ++ .keyword k :: vs) g) : ¬ ∃ f', Chain k P (ts ++ .keyword k :: us) f' := by
  intro longer
  obtain ⟨s, before, _⟩ := (h.chain k _).mp ⟨f, chain⟩
  obtain ⟨s', all, complete⟩ := (h.chain k _).mp longer
  obtain ⟨s'', path, _⟩ := (h _).mp ⟨g, operand⟩
  have opens : Opens k P (ts ++ [.keyword k]) := .behind chain
  have behind : Path (k :: K) .operand us s' := by
    refine (opens.path h).of_append ?_
    rwa [List.append_assoc, List.singleton_append]
  -- inside the operand the longer chain is complete, but operands do not go on with `k` there
  obtain ⟨t, inside⟩ := path.exists_of_append
  obtain rfl := (inside.mono k).right_unique behind
  exact new (inside.mem_of_keyword complete path)

/-- The last connective of a chain stands at one place. -/
theorem Chain.split_unique {f f' g g' : Filter String} {ts' us' : List Token}
    (h : Recognises K P) (new : k ∉ K) (left : Chain k P ts f) (right : P us g)
    (left' : Chain k P ts' f') (right' : P us' g')
    (same : ts ++ .keyword k :: us = ts' ++ .keyword k :: us') : ts = ts' ∧ us = us' := by
  rcases List.append_eq_append_iff.mp same with ⟨xs, rfl, tail⟩ | ⟨xs, rfl, tail⟩
  · cases xs with
    | nil => exact ⟨(List.append_nil ts).symm, (List.cons.inj tail).2⟩
    | cons x xs =>
      obtain ⟨rfl, rfl⟩ := List.cons.inj tail
      exact absurd ⟨f', left'⟩ (left.not_inside h new right)
  · cases xs with
    | nil => exact ⟨List.append_nil ts', (List.cons.inj tail).2.symm⟩
    | cons x xs =>
      obtain ⟨rfl, rfl⟩ := List.cons.inj tail
      exact absurd ⟨f, left⟩ (left'.not_inside h new right')

/-- An operand has no connective of the chain at its top. -/
theorem Chain.not_operand (h : Recognises K P) (new : k ∉ K) (left : Chain k P ts f) :
    ¬ P (ts ++ .keyword k :: us) g := by
  intro operand
  obtain ⟨s, path, complete⟩ := (h.chain k _).mp ⟨f, left⟩
  obtain ⟨s', all, _⟩ := (h _).mp ⟨g, operand⟩
  obtain ⟨s'', before⟩ := all.exists_of_append
  obtain rfl := (before.mono k).right_unique path
  exact new (before.mem_of_keyword complete all)

/-- If operands are unambiguous, chains of them are. -/
theorem Chain.unique (h : Recognises K P) (new : k ∉ K)
    (operands : ∀ {us f g}, P us f → P us g → f = g) (hf : Chain k P ts f) (hg : Chain k P ts g) :
    f = g := by
  induction hf generalizing g with
  | single operand =>
    cases hg with
    | single operand' => exact operands operand operand'
    | join left _ => exact absurd operand (left.not_operand h new)
  | join left right ih =>
    generalize same : _ ++ Token.keyword k :: _ = us at hg
    cases hg with
    | single operand => exact absurd (same ▸ operand) (left.not_operand h new)
    | join left' right' =>
      obtain ⟨rfl, rfl⟩ := left.split_unique h new right left' right' same
      rw [ih left', operands right right']

end Chain

theorem Negation.unique {ts : List Token} {f g : Filter String} (hf : Negation ts f)
    (hg : Negation ts g) : f = g := by
  induction hf generalizing g with
  | @clause c word =>
    generalize same : c.tokens = us at hg
    cases hg with
    | clause => rw [Clause.tokens_injective same]
    | not => exact absurd (Token.word.inj (List.cons.inj same).1) (word .not)
  | @not us f _ ih =>
    generalize same : Token.keyword .not :: us = vs at hg
    cases hg with
    | clause word => exact absurd (Token.word.inj (List.cons.inj same).1).symm (word .not)
    | not hg =>
      obtain ⟨_, rfl⟩ := List.cons.inj same
      rw [ih hg]

/-- Tokens spell one filter at most. -/
theorem Disjunction.unique {ts : List Token} {f g : Filter String} (hf : Disjunction ts f)
    (hg : Disjunction ts g) : f = g :=
  Chain.unique recognises_conjunction (by decide)
    (Chain.unique recognises_negation List.not_mem_nil Negation.unique) hf hg

variable {stop : Nat} {ls : List Lexeme} {f : Filter String}

/-- No token offends in a filter, however deep. -/
theorem Disjunction.not_offends {o : Nat} (h : Disjunction (tokens ls) f) :
    ¬ Offends stop ls o := by
  intro offends
  cases offends with
  | @token before after t _ refused =>
    refine refused ⟨tokens after, f, ?_⟩
    simpa [tokens] using h
  | stop _ incomplete => exact incomplete ⟨f, h⟩

/-- A text whose tokens spell a filter is read as this filter, unless it is too deep. -/
theorem parse_of_spelled {source : String} {ts : List Token}
    (splits : Token.Splits source.toList ts) (spelled : Disjunction ts f) :
    (f.depth ≤ maxDepth ∧ parse source = .ok f) ∨
      (maxDepth < f.depth ∧ ∃ o, parse source = .error (.malformed o .tooDeep)) := by
  obtain ⟨ls, read, rfl⟩ := read_eq_ok_iff.mpr splits
  rw [parse_of_read read]
  cases result : ofLexemes (Utf8.length source) ls with
  | ok g =>
    obtain ⟨spelled', shallow⟩ := ofLexemes_eq_ok.mp result
    obtain rfl := spelled.unique spelled'
    exact .inl ⟨shallow, rfl⟩
  | error e =>
    refine .inr ⟨Nat.lt_of_not_le fun shallow => ?_, ?_⟩
    · cases result.symm.trans (ofLexemes_eq_ok.mpr ⟨spelled, shallow⟩)
    · rcases ofLexemes_eq_error result with ⟨o, _, _, _, offends⟩ | ⟨o, rfl, _⟩
      · exact absurd offends spelled.not_offends
      · exact ⟨o, rfl⟩

/-- The nesting limit is the only reason to refuse a text whose tokens spell a filter. -/
theorem parse_tooDeep_iff {source : String} {ts : List Token}
    (splits : Token.Splits source.toList ts) (spelled : Disjunction ts f) :
    (∃ o, parse source = .error (.malformed o .tooDeep)) ↔ maxDepth < f.depth := by
  rcases parse_of_spelled splits spelled with ⟨shallow, read⟩ | ⟨deep, refused⟩
  · simp [read, Nat.not_lt.mpr shallow]
  · simp [refused, deep]

end Filter

end TableWire
