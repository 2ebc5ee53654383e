import TableWire.Proofs.Filter.Counting
import TableWire.Proofs.Filter.Splitting
/-!
The grammar of filter texts, over tokens, with the filter that each derivation spells. Parsing
accepts exactly the texts of this grammar whose filters are not too deep.
-/

namespace TableWire

namespace Token

def keyword (k : Connective) : Token := .word k.text

def flag (b : Bool) : Token := .word (if b then "true" else "false")

end Token

def Clause.tokens (c : Clause String) : List Token :=
  .word c.column :: .operator c.comparison.text :: .atSign :: .word c.operand ::
    .flag c.passIfMissing :: c.latestOnly.toList.map .flag

namespace Filter

/-- A clause behind any number of NOTs. Its column is no keyword. -/
inductive Negation : List Token → Filter String → Prop
  | clause {c : Clause String} : (∀ k : Connective, c.column ≠ k.text) →
    Negation c.tokens (.clause c)
  | not {ts : List Token} {f : Filter String} : Negation ts f →
    Negation (.keyword .not :: ts) f.not

/-- Operands with a connective between them, folded to the left. -/
inductive Chain (k : Connective) (operand : List Token → Filter String → Prop) :
    List Token → Filter String → Prop
  | single {ts : List Token} {f : Filter String} : operand ts f → Chain k operand ts f
  | join {ts us : List Token} {f g : Filter String} : Chain k operand ts f → operand us g →
    Chain k operand (ts ++ .keyword k :: us) (.node k [f, g])

def Conjunction : List Token → Filter String → Prop := Chain .and Negation

def Disjunction : List Token → Filter String → Prop := Chain .or Conjunction

open Lexeme

variable {ts rest : List Lexeme}

theorem readColumn_eq_ok {stop : Nat} {w : String} :
    readColumn stop ts = .ok (w, rest) ↔
      (∀ k : Connective, w ≠ k.text) ∧ ∃ o, ts = ⟨o, .word w⟩ :: rest := by
  simp only [ne_eq, ← Connective.ofText?_eq_some_iff, ← Option.eq_none_iff_forall_ne_some]
  rcases ts with _ | ⟨⟨o, w' | op | _⟩, ts⟩
  · simp [readColumn]
  · cases keyword : Connective.ofText? w' with
    | none =>
      simp only [readColumn, keyword]
      constructor
      · rintro ⟨⟩
        exact ⟨keyword, o, rfl⟩
      · rintro ⟨_, _, ⟨⟩⟩
        rfl
    | some k =>
      simp only [readColumn, keyword]
      constructor
      · rintro ⟨⟩
      · rintro ⟨none, _, ⟨⟩⟩
        rw [keyword] at none
        cases none
  · simp [readColumn]
  · simp [readColumn]

theorem readComparison_eq_ok {stop : Nat} {c : Comparison} :
    readComparison stop ts = .ok (c, rest) ↔ ∃ o, ts = ⟨o, .operator c.text⟩ :: rest := by
  rcases ts with _ | ⟨⟨o, w | op | _⟩, ts⟩
  · simp [readComparison]
  · simp [readComparison]
  · simp only [readComparison, List.cons.injEq, Lexeme.mk.injEq, Token.operator.injEq,
      ← Comparison.ofText?_eq_some_iff]
    cases Comparison.ofText? op <;> simp
  · simp [readComparison]

theorem readAtSign_eq_ok {stop : Nat} {u : Unit} :
    readAtSign stop ts = .ok (u, rest) ↔ ∃ o, ts = ⟨o, .atSign⟩ :: rest := by
  rcases ts with _ | ⟨⟨o, w | op | _⟩, ts⟩ <;> simp [readAtSign]

theorem readParameter_eq_ok {stop : Nat} {w : String} :
    readParameter stop ts = .ok (w, rest) ↔ ∃ o, ts = ⟨o, .word w⟩ :: rest := by
  rcases ts with _ | ⟨⟨o, w | op | _⟩, ts⟩ <;> simp [readParameter]

theorem flag?_eq_some {b : Bool} : flag? ts = some (b, rest) ↔ ∃ o, ts = ⟨o, .flag b⟩ :: rest := by
  constructor
  · intro found
    rw [flag?.eq_def] at found
    split at found <;> cases found <;> exact ⟨_, rfl⟩
  · rintro ⟨o, rfl⟩
    cases b <;> rfl

theorem readFlag_eq_ok {stop : Nat} {b : Bool} :
    readFlag stop ts = .ok (b, rest) ↔ ∃ o, ts = ⟨o, .flag b⟩ :: rest := by
  rw [← flag?_eq_some, readFlag]
  cases flag? ts <;> simp

theorem readClause_eq_ok {stop : Nat} {f : Filter String} :
    readClause stop ts = .ok (f, rest) ↔
      ∃ c : Clause String, (∀ k : Connective, c.column ≠ k.text) ∧ f = .clause c ∧
        (∃ ls, tokens ls = c.tokens ∧ ts = ls ++ rest) ∧
        (c.latestOnly = none → flag? rest = none) := by
  rw [readClause]
  simp only [Except.bind_eq_ok, Prod.exists, readColumn_eq_ok, readComparison_eq_ok,
    readAtSign_eq_ok, readParameter_eq_ok, readFlag_eq_ok]
  constructor
  · rintro ⟨column, _, ⟨word, o₁, rfl⟩, comparison, _, ⟨o₂, rfl⟩, _, _, ⟨o₃, rfl⟩,
      operand, _, ⟨o₄, rfl⟩, passIfMissing, after, ⟨o₅, rfl⟩, run⟩
    let c (latest : Option Bool) : Clause String :=
      ⟨column, comparison, operand, passIfMissing, latest⟩
    cases found : flag? after with
    | none =>
      rw [found] at run
      obtain ⟨rfl, rfl⟩ := Prod.mk.inj (Except.pure_eq_ok.mp run)
      exact ⟨c none, word, rfl, ⟨[_, _, _, _, _], rfl, rfl⟩, fun _ => found⟩
    | some read =>
      obtain ⟨latest, after'⟩ := read
      rw [found] at run
      obtain ⟨rfl, rfl⟩ := Prod.mk.inj (Except.pure_eq_ok.mp run)
      obtain ⟨o₆, rfl⟩ := flag?_eq_some.mp found
      exact ⟨c (some latest), word, rfl, ⟨[_, _, _, _, _, _], rfl, rfl⟩, nofun⟩
  · rintro ⟨c, word, rfl, ⟨ls, spelled, rfl⟩, ends⟩
    simp only [Clause.tokens, tokens_eq_cons] at spelled
    obtain ⟨o₁, _, rfl, o₂, _, rfl, o₃, _, rfl, o₄, _, rfl, o₅, ls, rfl, spelled⟩ := spelled
    refine ⟨c.column, _, ⟨word, o₁, rfl⟩, c.comparison, _, ⟨o₂, rfl⟩, (), _, ⟨o₃, rfl⟩,
      c.operand, _, ⟨o₄, rfl⟩, c.passIfMissing, ls ++ rest, ⟨o₅, rfl⟩, ?_⟩
    obtain ⟨column, comparison, operand, passIfMissing, latest⟩ := c
    cases latest with
    | none =>
      obtain rfl := List.map_eq_nil_iff.mp spelled
      simp only [List.nil_append, ends rfl]
      rfl
    | some latest =>
      obtain ⟨o₆, _, rfl, last⟩ := tokens_eq_cons.mp spelled
      obtain rfl := List.map_eq_nil_iff.mp last
      rw [List.cons_append, List.nil_append, flag?_eq_some.mpr ⟨o₆, rfl⟩]
      rfl

/-- Behind `nots` open NOTs, `p` reads the filters that `P` spells, up to `limit` connectives deep.
It reads all that it can, so what follows must be no continuation. -/
structure Spells (p : CountingReader) (nots limit : Nat)
    (P : List Token → Filter String → Prop) (Ends : List Lexeme → Prop) : Prop where
  sound : ∀ {ts rest : List Lexeme} {f : Filter String}, p nots ts = .ok (counted nots f, rest) →
    ∃ ls, ts = ls ++ rest ∧ P (tokens ls) f ∧ f.depth ≤ limit
  complete : ∀ {ls rest : List Lexeme} {f : Filter String}, P (tokens ls) f → f.depth ≤ limit →
    Ends rest → p nots (ls ++ rest) = .ok (counted nots f, rest)

theorem readNegation_not {stop nots o : Nat} : readNegation stop nots (⟨o, .keyword .not⟩ :: ts) =
    (do
      let opened ← deepen o nots
      let (operand, rest) ← readNegation stop opened ts
      let depth ← deepen o operand.depth
      return (⟨.not operand.filter, depth, operand.nots - 1⟩, rest)) := by
  rw [Token.keyword, Connective.text, readNegation]

theorem readNegation_of_ne {stop nots : Nat} (h : ∀ o us, ts ≠ ⟨o, .keyword .not⟩ :: us) :
    readNegation stop nots ts = (do
      let (f, rest) ← readClause stop ts
      return (⟨f, 0, nots⟩, rest)) := by
  rw [readNegation]
  exact h

/-- Without a NOT, there is a clause. -/
theorem readNegation_clause_eq_ok {stop nots : Nat} {r : Counted}
    (h : ∀ o us, ts ≠ ⟨o, .keyword .not⟩ :: us) : readNegation stop nots ts = .ok (r, rest) ↔
      ∃ f, readClause stop ts = .ok (f, rest) ∧ r = counted nots f := by
  rw [readNegation_of_ne h]
  simp only [Except.bind_eq_ok, Prod.exists, Except.pure_eq_ok]
  constructor
  · rintro ⟨f, _, read, same⟩
    obtain ⟨c, rfl⟩ := exists_clause_of_readClause read
    cases same
    exact ⟨_, read, by simp [counted, depth]⟩
  · rintro ⟨f, read, rfl⟩
    obtain ⟨c, rfl⟩ := exists_clause_of_readClause read
    exact ⟨_, _, read, by simp [counted, depth]⟩

/-- What stands behind a NOT that has been read. -/
theorem readNegation_not_eq_ok {stop nots o : Nat} {r : Counted} :
    readNegation stop nots (⟨o, .keyword .not⟩ :: ts) = .ok (r, rest) ↔ nots < maxDepth ∧
      ∃ f, readNegation stop (nots + 1) ts = .ok (counted (nots + 1) f, rest) ∧
        f.depth < maxDepth ∧ r = counted nots f.not := by
  rw [readNegation_not]
  simp only [Except.bind_eq_ok, deepen_eq_ok, Prod.exists, Except.pure_eq_ok]
  constructor
  · rintro ⟨_, ⟨room, rfl⟩, r, _, run, _, ⟨shallow, rfl⟩, same⟩
    obtain ⟨f, rfl⟩ := counts_readNegation stop _ _ _ _ run
    cases same
    exact ⟨room, f, run, shallow, by simp [counted, depth_not]⟩
  · rintro ⟨room, f, run, shallow, rfl⟩
    exact ⟨_, ⟨room, rfl⟩, _, _, run, _, ⟨shallow, rfl⟩, by simp [counted, depth_not]⟩

theorem readNegation_spells {stop nots : Nat} (room : nots ≤ maxDepth) :
    Spells (readNegation stop) nots (maxDepth - nots) Negation (fun rest => flag? rest = none) where
  sound := by
    intro ts rest f run
    induction nots, ts using readNegation.induct generalizing f with
    | case1 nots o ts ih =>
      obtain ⟨_, g, onward, _, same⟩ := readNegation_not_eq_ok.mp run
      obtain rfl := counted_inj.mp same
      obtain ⟨ls, rfl, spelled, shallow⟩ := ih _ (by omega) onward
      refine ⟨⟨o, .keyword .not⟩ :: ls, rfl, .not spelled, ?_⟩
      rw [depth_not]
      omega
    | case2 nots ts no_not =>
      obtain ⟨g, read, same⟩ := (readNegation_clause_eq_ok no_not).mp run
      obtain rfl := counted_inj.mp same
      obtain ⟨c, word, rfl, ⟨ls, spelled, rfl⟩, _⟩ := readClause_eq_ok.mp read
      refine ⟨ls, rfl, ?_, ?_⟩
      · rw [spelled]
        exact .clause word
      · simp [depth]
  complete := by
    intro ls rest f spelled shallow ends
    generalize same : tokens ls = us at spelled
    induction spelled generalizing nots ls with
    | @clause c word =>
      rw [readNegation_clause_eq_ok]
      · exact ⟨_, readClause_eq_ok.mpr ⟨c, word, rfl, ⟨ls, same, rfl⟩, fun _ => ends⟩, rfl⟩
      · intro o us begins
        obtain ⟨_, ls, rfl, _⟩ := tokens_eq_cons.mp same
        simp only [List.cons_append, List.cons.injEq, Lexeme.mk.injEq] at begins
        exact word .not (Token.word.inj begins.1.2)
    | @not _ f _ ih =>
      obtain ⟨o, ls, rfl, same'⟩ := tokens_eq_cons.mp same
      rw [depth_not] at shallow
      rw [List.cons_append, readNegation_not_eq_ok]
      exact ⟨by omega, f, ih (by omega) (by omega) same', by omega, rfl⟩

section Chain

variable {k : Connective} {p : CountingReader} {consumes : ∀ nots, Consumes (p nots)}
  {P : List Token → Filter String → Prop} {Ends : List Lexeme → Prop} {nots : Nat}

theorem readChainFrom_sound (counts : Counts p) (reads : Spells p nots maxDepth P Ends)
    {f g : Filter String}
    (run : readChainFrom k p consumes (counted nots f) ts = .ok (counted nots g, rest))
    {us : List Token} (spelled : Chain k P us f) (shallow : f.depth ≤ maxDepth) :
    ∃ ls, ts = ls ++ rest ∧ Chain k P (us ++ tokens ls) g ∧ g.depth ≤ maxDepth := by
  generalize begun : counted nots f = left at run
  fun_induction readChainFrom k p consumes left ts generalizing us f with
  | case1 => cases run
  | case2 => cases run
  | case3 left o ts right ts' operand shorter depth deeper ih =>
    subst begun
    obtain ⟨g', rfl⟩ := counts _ _ _ _ operand
    obtain ⟨room, rfl⟩ := deepen_eq_ok.mp deeper
    obtain ⟨ls, rfl, spelled', _⟩ := reads.sound operand
    obtain ⟨ls', rfl, all, shallow'⟩ := ih (spelled.join spelled')
      (by rw [depth_join]; exact room) (counted_join nots f g').symm run
    refine ⟨⟨o, .keyword k⟩ :: (ls ++ ls'), by simp [Token.keyword], ?_, shallow'⟩
    simpa [tokens] using all
  | case4 =>
    obtain ⟨same, rfl⟩ := Prod.mk.inj (Except.ok.inj run)
    obtain rfl := counted_inj.mp (begun.trans same)
    exact ⟨[], rfl, by simpa [tokens] using spelled, shallow⟩
  | case5 =>
    obtain ⟨same, rfl⟩ := Prod.mk.inj (Except.ok.inj run)
    obtain rfl := counted_inj.mp (begun.trans same)
    exact ⟨[], rfl, by simpa [tokens] using spelled, shallow⟩

/-- No further operand follows. -/
def ChainEnds (k : Connective) (rest : List Lexeme) : Prop := ∀ o us, rest ≠ ⟨o, .keyword k⟩ :: us

theorem readChainFrom_of_ends {left : Counted} (ends : ChainEnds k rest) :
    readChainFrom k p consumes left rest = .ok (left, rest) := by
  rw [readChainFrom.eq_def]
  split
  · next o w us =>
    rw [if_neg]
    rintro rfl
    exact ends o us rfl
  · rfl

/-- One turn of the loop: a further operand is read and joined. -/
theorem readChainFrom_keyword {left : Counted} {o : Nat} {ts : List Lexeme} :
    readChainFrom k p consumes left (⟨o, .keyword k⟩ :: ts) = (do
      let (right, rest) ← p left.nots ts
      let depth ← deepen o (max left.depth right.depth)
      readChainFrom k p consumes ⟨node k [left.filter, right.filter], depth, right.nots⟩ rest) := by
  rw [Token.keyword, readChainFrom, if_pos rfl]
  split
  · next failed =>
    conv_rhs => rw [failed]
    rfl
  · next right rest found =>
    conv_rhs => rw [found]
    change _ = deepen o (max left.depth right.depth) >>= _
    cases deepen o (max left.depth right.depth) <;> rfl

theorem readChainFrom_join {f g : Filter String} {o : Nat}
    (operand : p nots ts = .ok (counted nots g, rest))
    (shallow : (node k [f, g]).depth ≤ maxDepth) :
    readChainFrom k p consumes (counted nots f) (⟨o, .keyword k⟩ :: ts) =
      readChainFrom k p consumes (counted nots (node k [f, g])) rest := by
  rw [depth_join] at shallow
  have room : deepen o (max f.depth g.depth) = .ok (max f.depth g.depth + 1) :=
    deepen_eq_ok.mpr ⟨shallow, rfl⟩
  rw [readChainFrom_keyword, ← counted_join]
  change (p nots ts >>= _) = _
  rw [operand]
  change (deepen o (max f.depth g.depth) >>= _) = _
  rw [room]
  rfl

theorem readChain_append (reads : Spells p nots maxDepth P Ends)
    (keyword : ∀ o us, Ends (⟨o, .keyword k⟩ :: us)) {us : List Token} {f : Filter String}
    (spelled : Chain k P us f) (shallow : f.depth ≤ maxDepth) (ends : Ends rest) {ls : List Lexeme}
    (same : tokens ls = us) :
    readChain k p consumes nots (ls ++ rest) =
      readChainFrom k p consumes (counted nots f) rest := by
  induction spelled generalizing ls rest with
  | single spelled =>
    rw [readChain, reads.complete (same ▸ spelled) shallow ends]
    rfl
  | @join ts us f g _ operand ih =>
    obtain ⟨fs, gs, rfl, rfl, same'⟩ := List.map_eq_append_iff.mp same
    obtain ⟨o, gs, rfl, rfl⟩ := tokens_eq_cons.mp same'
    have deep := shallow
    rw [depth_join] at deep
    rw [List.append_assoc, List.cons_append, ih (by omega) (keyword _ _) rfl]
    exact readChainFrom_join (reads.complete operand (by omega) ends) shallow

theorem readChain_spells (counts : Counts p) (reads : Spells p nots maxDepth P Ends)
    (keyword : ∀ o us, Ends (⟨o, .keyword k⟩ :: us)) :
    Spells (readChain k p consumes) nots maxDepth (Chain k P)
      (fun rest => Ends rest ∧ ChainEnds k rest) where
  sound := by
    intro ts rest g run
    obtain ⟨⟨left, _⟩, first, onward⟩ := Except.bind_eq_ok.mp run
    obtain ⟨f, rfl⟩ := counts _ _ _ _ first
    obtain ⟨ls, rfl, spelled, shallow⟩ := reads.sound first
    obtain ⟨ls', rfl, all, shallow'⟩ :=
      readChainFrom_sound counts reads onward (.single spelled) shallow
    refine ⟨ls ++ ls', (List.append_assoc _ _ _).symm, ?_, shallow'⟩
    simpa [tokens] using all
  complete := by
    intro ls rest f spelled shallow ends
    rw [readChain_append reads keyword spelled shallow ends.1 rfl, readChainFrom_of_ends ends.2]

end Chain

theorem flag?_keyword (k : Connective) (o : Nat) (us : List Lexeme) :
    flag? (⟨o, .keyword k⟩ :: us) = none := by
  cases k <;> rfl

/-- No NOT is open at the operands of ANDs and ORs, so a chain of NOTs may be as long there as it
may be anywhere. -/
theorem readConjunction_spells (stop : Nat) : Spells (readConjunction stop) 0 maxDepth Conjunction
    (fun rest => flag? rest = none ∧ ChainEnds .and rest) :=
  readChain_spells (counts_readNegation stop) (readNegation_spells (Nat.zero_le _))
    (flag?_keyword .and)

theorem readDisjunction_spells (stop : Nat) : Spells (readDisjunction stop) 0 maxDepth Disjunction
    (fun rest => (flag? rest = none ∧ ChainEnds .and rest) ∧ ChainEnds .or rest) := by
  refine readChain_spells (counts_readConjunction stop) (readConjunction_spells stop)
    fun o us => ⟨flag?_keyword .or o us, ?_⟩
  intro o us same
  simp [Token.keyword, Connective.text] at same

theorem ofLexemes_eq_ok {stop : Nat} {f : Filter String} :
    ofLexemes stop ts = .ok f ↔ Disjunction (tokens ts) f ∧ f.depth ≤ maxDepth := by
  rw [ofLexemes, Except.bind_eq_ok]
  constructor
  · rintro ⟨⟨read, rest⟩, run, last⟩
    obtain ⟨g, rfl⟩ := counts_readDisjunction stop _ _ _ _ run
    obtain ⟨ls, rfl, spelled, shallow⟩ := (readDisjunction_spells stop).sound run
    cases rest with
    | nil =>
      obtain rfl := Except.pure_eq_ok.mp last
      exact ⟨(List.append_nil ls).symm ▸ spelled, shallow⟩
    | cons t rest => cases last
  · rintro ⟨spelled, shallow⟩
    have run : readDisjunction stop 0 (ts ++ []) = .ok (counted 0 f, []) :=
      (readDisjunction_spells stop).complete spelled shallow ⟨⟨rfl, nofun⟩, nofun⟩
    rw [List.append_nil] at run
    exact ⟨_, run, rfl⟩

theorem parse_of_read {source : String} {ls : List Lexeme} (read : Lexeme.read source = .ok ls) :
    parse source = ofLexemes (Utf8.length source) ls := by
  rw [parse, read]
  rfl

theorem spelled_of_parse {source : String} {f : Filter String} (h : parse source = .ok f) :
    ∃ ts, Token.Splits source.toList ts ∧ Disjunction ts f ∧ f.depth ≤ maxDepth := by
  obtain ⟨ls, read, run⟩ := Except.bind_eq_ok.mp h
  exact ⟨tokens ls, Lexeme.read_eq_ok_iff.mp ⟨ls, read, rfl⟩, ofLexemes_eq_ok.mp run⟩

theorem parse_eq_ok_of_spelled {source : String} {ts : List Token} {f : Filter String}
    (splits : Token.Splits source.toList ts) (spelled : Disjunction ts f)
    (shallow : f.depth ≤ maxDepth) : parse source = .ok f := by
  obtain ⟨ls, read, rfl⟩ := Lexeme.read_eq_ok_iff.mpr splits
  rw [parse_of_read read]
  exact ofLexemes_eq_ok.mpr ⟨spelled, shallow⟩

/-- Parsing accepts the texts that split into the tokens of a filter that is not too deep, and finds
this filter. -/
theorem parse_eq_ok_iff {source : String} {f : Filter String} :
    parse source = .ok f ↔
      ∃ ts, Token.Splits source.toList ts ∧ Disjunction ts f ∧ f.depth ≤ maxDepth := by
  constructor
  · exact spelled_of_parse
  · rintro ⟨ts, splits, spelled, shallow⟩
    exact parse_eq_ok_of_spelled splits spelled shallow

end Filter

end TableWire
