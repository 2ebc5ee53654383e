import TableWire.Proofs.Filter.Blame
/-!
Lexemes at other offsets. The readers of filter texts look at tokens alone and hand the offsets on
to their errors (`Relabels`), so texts with the same tokens are read as the same filter, or refused
for the same flaw at the same token.
-/

namespace TableWire

def Lexeme.relabel (φ : Nat → Nat) (t : Lexeme) : Lexeme := ⟨φ t.offset, t.token⟩

def FilterError.relabel (φ : Nat → Nat) : FilterError → FilterError
  | .malformed offset flaw => .malformed (φ offset) flaw
  | .unsupportedComparison text => .unsupportedComparison text
  | .unsupportedConnective text => .unsupportedConnective text
  | .tooDeep => .tooDeep
  | .invalidArity connective parts => .invalidArity connective parts

namespace Filter

open Lexeme

variable {α β : Type} {φ : Nat → Nat}

def relabelResult (φ : Nat → Nat) :
    Except FilterError (α × List Lexeme) → Except FilterError (α × List Lexeme)
  | .ok (a, rest) => .ok (a, rest.map (·.relabel φ))
  | .error e => .error (e.relabel φ)

/-- Where the offsets are those that `φ` gives, `q` does what `p` does. -/
def Relabels (φ : Nat → Nat) (p q : Reader α) : Prop :=
  ∀ ts, q (ts.map (·.relabel φ)) = relabelResult φ (p ts)

theorem Relabels.bind {p q : Reader α}
    {f g : α × List Lexeme → Except FilterError (β × List Lexeme)} (h : Relabels φ p q)
    (h' : ∀ a, Relabels φ (fun ts => f (a, ts)) fun ts => g (a, ts)) :
    Relabels φ (fun ts => p ts >>= f) fun ts => q ts >>= g := by
  intro ts
  dsimp only
  rw [h ts]
  cases p ts with
  | error e => rfl
  | ok r => exact h' r.1 r.2

theorem map_relabel_eq_cons {ts us : List Lexeme} {o : Nat} {t : Token}
    (h : ts.map (·.relabel φ) = ⟨o, t⟩ :: us) : ∃ o' us', ts = ⟨o', t⟩ :: us' := by
  obtain ⟨⟨o', _⟩, us', rfl, ⟨⟩, _⟩ := List.map_eq_cons_iff.mp h
  exact ⟨o', us', rfl⟩

section Readers

variable (stop : Nat)

theorem relabels_column : Relabels φ (readColumn stop) (readColumn (φ stop)) := by
  rintro (_ | ⟨⟨o, w | op | _⟩, ts⟩)
  · rfl
  · simp only [List.map_cons, Lexeme.relabel, readColumn]
    cases Connective.ofText? w <;> rfl
  · rfl
  · rfl

theorem relabels_comparison : Relabels φ (readComparison stop) (readComparison (φ stop)) := by
  rintro (_ | ⟨⟨o, w | op | _⟩, ts⟩)
  · rfl
  · rfl
  · simp only [List.map_cons, Lexeme.relabel, readComparison]
    cases Comparison.ofText? op <;> rfl
  · rfl

theorem relabels_atSign : Relabels φ (readAtSign stop) (readAtSign (φ stop)) := by
  rintro (_ | ⟨⟨o, w | op | _⟩, ts⟩) <;> rfl

theorem relabels_parameter : Relabels φ (readParameter stop) (readParameter (φ stop)) := by
  rintro (_ | ⟨⟨o, w | op | _⟩, ts⟩) <;> rfl

theorem flag?_relabel (ts : List Lexeme) : flag? (ts.map (·.relabel φ)) =
    (flag? ts).map fun (b, rest) => (b, rest.map (·.relabel φ)) := by
  cases found : flag? ts with
  | none =>
    refine Option.eq_none_iff_forall_ne_some.mpr fun ⟨b, rest⟩ taken => ?_
    obtain ⟨o, same⟩ := flag?_eq_some.mp taken
    obtain ⟨o', ts', rfl⟩ := map_relabel_eq_cons same
    cases found.symm.trans (flag?_eq_some.mpr ⟨o', rfl⟩)
  | some r =>
    obtain ⟨o, rfl⟩ := flag?_eq_some.mp found
    exact flag?_eq_some.mpr ⟨φ o, rfl⟩

theorem relabels_flag : Relabels φ (readFlag stop) (readFlag (φ stop)) := by
  intro ts
  rw [readFlag, readFlag, flag?_relabel]
  cases flag? ts with
  | none => cases ts <;> rfl
  | some r => rfl

theorem relabels_clause : Relabels φ (readClause stop) (readClause (φ stop)) := by
  refine (relabels_column stop).bind fun column => ?_
  refine (relabels_comparison stop).bind fun comparison => ?_
  refine (relabels_atSign stop).bind fun _ => ?_
  refine (relabels_parameter stop).bind fun operand => ?_
  refine (relabels_flag stop).bind fun passIfMissing => ?_
  intro ts
  dsimp only
  rw [flag?_relabel]
  cases flag? ts <;> rfl

theorem deepen_relabel (o levels : Nat) :
    deepen (φ o) levels = (deepen o levels).mapError (·.relabel φ) := by
  by_cases full : maxDepth ≤ levels
  · simp [deepen, full, Except.mapError, FilterError.relabel]
  · simp [deepen, full, Except.mapError]

theorem relabels_negation (nots : Nat) :
    Relabels φ (readNegation stop nots) (readNegation (φ stop) nots) := by
  intro ts
  induction nots, ts using readNegation.induct with
  | case1 nots o ts ih =>
    change readNegation (φ stop) nots (⟨φ o, .keyword .not⟩ :: ts.map (·.relabel φ)) =
      relabelResult φ (readNegation stop nots (⟨o, .keyword .not⟩ :: ts))
    rw [readNegation_not, readNegation_not, deepen_relabel]
    cases deepen o nots with
    | error e => rfl
    | ok opened =>
      change readNegation (φ stop) opened _ >>= _ =
        relabelResult φ (readNegation stop opened ts >>= _)
      rw [ih opened]
      cases readNegation stop opened ts with
      | error e => rfl
      | ok r =>
        change deepen (φ o) r.1.depth >>= _ = relabelResult φ (deepen o r.1.depth >>= _)
        rw [deepen_relabel]
        cases deepen o r.1.depth <;> rfl
  | case2 nots ts no_not =>
    rw [readNegation_of_ne no_not, readNegation_of_ne]
    · rw [relabels_clause stop ts]
      cases readClause stop ts <;> rfl
    · intro o us same
      obtain ⟨o', us', rfl⟩ := map_relabel_eq_cons same
      exact no_not o' us' rfl

section Chain

variable {k : Connective} {p q : CountingReader} {consumes : ∀ nots, Consumes (p nots)}
  {consumes' : ∀ nots, Consumes (q nots)}

theorem relabels_chainFrom (h : ∀ nots, Relabels φ (p nots) (q nots)) (left : Counted) :
    Relabels φ (readChainFrom k p consumes left) (readChainFrom k q consumes' left) := by
  intro ts
  -- turn by turn: an operand consumes lexemes, so the rest of the chain is shorter
  induction size : ts.length using Nat.strong_induction_on generalizing left ts with
  | _ n ih =>
    by_cases ends : ChainEnds k ts
    · have ends' : ChainEnds k (ts.map (·.relabel φ)) := by
        intro o us same
        obtain ⟨o', us', rfl⟩ := map_relabel_eq_cons same
        exact ends o' us' rfl
      rw [readChainFrom_of_ends ends, readChainFrom_of_ends ends']
      rfl
    · simp only [ChainEnds, not_forall, ne_eq, not_not] at ends
      obtain ⟨o, us, rfl⟩ := ends
      rw [List.map_cons, Lexeme.relabel, readChainFrom_keyword, readChainFrom_keyword, h _ us]
      cases operand : p left.nots us with
      | error e => rfl
      | ok r =>
        obtain ⟨right, rest⟩ := r
        have shorter : rest.length < n := by
          have := consumes _ us right rest operand
          simp only [List.length_cons] at size
          omega
        change deepen (φ o) _ >>= _ = relabelResult φ (deepen o _ >>= _)
        rw [deepen_relabel]
        cases deepen o (max left.depth right.depth) with
        | error e => rfl
        | ok depth => exact ih _ shorter _ rest rfl

theorem relabels_chain (h : ∀ nots, Relabels φ (p nots) (q nots)) (nots : Nat) :
    Relabels φ (readChain k p consumes nots) (readChain k q consumes' nots) :=
  (h nots).bind fun left => relabels_chainFrom h left

end Chain

theorem relabels_disjunction (nots : Nat) :
    Relabels φ (readDisjunction stop nots) (readDisjunction (φ stop) nots) :=
  relabels_chain (relabels_chain (relabels_negation stop)) nots

theorem ofLexemes_relabel (ts : List Lexeme) : ofLexemes (φ stop) (ts.map (·.relabel φ)) =
    (ofLexemes stop ts).mapError (·.relabel φ) := by
  rw [ofLexemes, ofLexemes, relabels_disjunction stop 0 ts]
  cases readDisjunction stop 0 ts with
  | error e => rfl
  | ok r =>
    obtain ⟨f, rest⟩ := r
    cases rest <;> rfl

end Readers

/-- The tokens with their places in the list as offsets. -/
def numbered (ts : List Token) : List Lexeme := ts.mapIdx fun i t => ⟨i, t⟩

variable {stop stop' : Nat} {ls ls' : List Lexeme}

theorem relabel_numbered (stop : Nat) (ls : List Lexeme) :
    (numbered (tokens ls)).map (·.relabel fun i => nextOffset stop (ls.drop i)) = ls := by
  refine List.ext_getElem (by simp [numbered, tokens]) fun i _ inside => ?_
  simp only [numbered, tokens, List.getElem_map, List.getElem_mapIdx, Lexeme.relabel]
  rw [List.drop_eq_getElem_cons inside]
  rfl

/-- Lexemes are read as their numbered tokens are, but for the offsets. -/
theorem ofLexemes_eq_numbered (stop : Nat) (ls : List Lexeme) :
    ofLexemes stop ls = (ofLexemes ls.length (numbered (tokens ls))).mapError
      (·.relabel fun i => nextOffset stop (ls.drop i)) := by
  rw [← ofLexemes_relabel, relabel_numbered, List.drop_length]
  rfl

theorem le_length_of_numbered {ts : List Token} {e : FilterError}
    (run : ofLexemes ts.length (numbered ts) = .error e) :
    ∃ i flaw, i ≤ ts.length ∧ e = .malformed i flaw := by
  have inside {i : Nat} (mem : ∃ t ∈ numbered ts, t.offset = i) : i ≤ ts.length := by
    obtain ⟨t, ht, rfl⟩ := mem
    obtain ⟨i, small, rfl⟩ := List.mem_mapIdx.mp ht
    exact Nat.le_of_lt small
  rcases ofLexemes_eq_error run with ⟨i, flaw, rfl, _, offends⟩ | ⟨i, rfl, deep⟩
  · exact ⟨i, flaw, offends.mem.elim Nat.le_of_eq inside, rfl⟩
  · exact ⟨i, _, inside deep.mem, rfl⟩

/-- Lexemes with the same tokens are read as the same filter, or are refused for the same flaw at
the same one of them, or at the end. -/
theorem ofLexemes_of_tokens (same : tokens ls = tokens ls') :
    (∃ f, ofLexemes stop ls = .ok f ∧ ofLexemes stop' ls' = .ok f) ∨
      ∃ i flaw, i ≤ ls.length ∧
        ofLexemes stop ls = .error (.malformed (nextOffset stop (ls.drop i)) flaw) ∧
        ofLexemes stop' ls' = .error (.malformed (nextOffset stop' (ls'.drop i)) flaw) := by
  have length : ls'.length = ls.length := by simpa [tokens] using congrArg List.length same.symm
  rw [ofLexemes_eq_numbered stop ls, ofLexemes_eq_numbered stop' ls', length, ← same]
  cases run : ofLexemes ls.length (numbered (tokens ls)) with
  | ok f => exact .inl ⟨f, rfl, rfl⟩
  | error e =>
    have count : (tokens ls).length = ls.length := List.length_map _
    rw [← count] at run ⊢
    obtain ⟨i, flaw, inside, rfl⟩ := le_length_of_numbered run
    exact .inr ⟨i, flaw, inside, rfl, rfl⟩

end Filter

end TableWire
