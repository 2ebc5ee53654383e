import TableWire.Proofs.Filter.Recovery
import TableWire.Proofs.Filter.Spacing
import TableWire.Proofs.Filter.Unambiguous
/-!
The failures of texts on their way to messages. A text that is read compiles unless an operand is
not supplied, and then the first one in the text is blamed: the nesting limit of compiling is never
met, because it is that of reading.
-/

namespace TableWire.Filter

open Token

variable {b : Bindings} {source : String} {f : Filter String}

/-- The clause is the leftmost one of the text whose operand is not supplied. -/
structure Leftmost (b : Bindings) (source : String) (before : List (Piece String))
    (c : Clause String) (after : List (Piece String)) : Prop where
  splits : Splits source.toList ((before ++ .clause c :: after).flatMap Piece.tokens)
  supplied : ∀ d, .clause d ∈ before → b.Supplies d.operand

theorem makeMessage_of_parse_ok (read : parse source = .ok f) : (makeMessage source b).outcome =
    ((f.resolve b >>= encode).map Compiled.message).mapError .compile := by
  simp only [makeMessage, read, Except.mapError, liftM, Traced.lift_ok_bind, Traced.outcome_bind,
    Traced.outcome_mapError, compile_outcome]
  cases f.resolve b >>= encode <;> rfl

theorem makeMessage_of_parse_error {e : FilterError} (refused : parse source = .error e) :
    (makeMessage source b).outcome = .error (.filter e) := by
  rw [makeMessage, refused]
  rfl

/-- Reading fails on its own account only. -/
theorem makeMessage_eq_filter_error_iff {e : FilterError} :
    (makeMessage source b).outcome = .error (.filter e) ↔ parse source = .error e := by
  constructor
  · intro failed
    cases read : parse source with
    | error e' =>
      rw [makeMessage_of_parse_error read] at failed
      cases failed
      rfl
    | ok f =>
      rw [makeMessage_of_parse_ok read] at failed
      cases run : f.resolve b >>= encode <;> rw [run] at failed <;> cases failed
  · exact makeMessage_of_parse_error

/-- A text whose operands are supplied and fit has a message. -/
theorem exists_message (read : parse source = .ok f)
    (fits : ∀ c ∈ f.clauses, ∀ v ∈ b.get? c.operand, v.Fits)
    (supplied : ∀ c ∈ f.clauses, b.Supplies c.operand) :
    ∃ m, (makeMessage source b).outcome = .ok m := by
  have shallow := (expressible_of_parse read).2
  have no_error : (f.resolve b).error? = none := by
    rw [error?_resolve_of_shallow shallow, List.findSome?_eq_none_iff]
    rintro _ mem
    exact offence?_eq_none.mpr fun c same => forall_pieces_iff.mpr supplied c (same ▸ mem)
  obtain ⟨g, resolved⟩ := Except.error?_eq_none.mp no_error
  obtain rfl := eq_substitute_of_resolveAt resolved
  have fit : ∀ c ∈ (f.substitute b).clauses, c.operand.Fits := by
    rw [clauses_substitute]
    refine List.forall_mem_map.mpr fun c hc => ?_
    obtain ⟨v, bound, _⟩ := supplied c hc
    simpa [bound] using fits c hc v bound
  have room : 0 + (f.substitute b).depth ≤ maxDepth := by rwa [Nat.zero_add, depth_substitute]
  obtain ⟨d, encoded⟩ : ∃ d, (f.substitute b).encode = .ok d := exists_encodeAt room fit
  refine ⟨d.message, ?_⟩
  rw [makeMessage_of_parse_ok read, Except.bind_eq_ok.mpr ⟨_, resolved, encoded⟩]
  rfl

/-- If some operand is not supplied, the leftmost clause with such an operand is blamed. -/
theorem exists_leftmost (read : parse source = .ok f)
    (unsupplied : ¬ ∀ c ∈ f.clauses, b.Supplies c.operand) :
    ∃ before c after e, f.pieces = before ++ .clause c :: after ∧
      Leftmost b source before c after ∧ Refused b c e ∧
      (makeMessage source b).outcome = .error (.compile e) := by
  obtain ⟨ts, splits, spelled, shallow⟩ := spelled_of_parse read
  -- the pieces of the text are resolved in their order, so the first offence is the leftmost
  have failed : f.pieces.findSome? (offence? b) ≠ none := by
    rw [ne_eq, List.findSome?_eq_none_iff]
    refine fun none => unsupplied (forall_pieces_iff.mp fun c hc => ?_)
    exact offence?_eq_none.mp (none _ hc) c rfl
  obtain ⟨e, first⟩ := Option.ne_none_iff_exists'.mp failed
  obtain ⟨before, p, after, pieces, offence, none⟩ := List.findSome?_eq_some_iff.mp first
  obtain ⟨c, rfl, refused⟩ := offence?_eq_some.mp offence
  refine ⟨before, c, after, e, pieces, ⟨?_, fun d hd => ?_⟩, refused, ?_⟩
  · rwa [← pieces, ← spelling, spelled.spelling_eq]
  · exact offence?_eq_none.mp (none _ hd) d rfl
  · rw [← error?_resolve_of_shallow shallow, Except.error?_eq_some] at first
    rw [makeMessage_of_parse_ok read, first]
    rfl

/-- Parts fail to compile when one of them does. -/
theorem exists_of_encodeAllAt_eq_error {n : Nat} {gs : List (Filter Value)} {e : CompileError}
    (failed : encodeAllAt n gs = .error e) : ∃ g ∈ gs, g.encodeAt n = .error e := by
  induction gs with
  | nil => cases failed
  | cons g gs ih =>
    rw [encodeAllAt] at failed
    obtain one | ⟨_, _, failed⟩ := Except.bind_eq_error.mp failed
    · exact ⟨g, List.mem_cons_self, one⟩
    · obtain more | ⟨_, _, none⟩ := Except.bind_eq_error.mp failed
      · obtain ⟨g', mem, part⟩ := ih more
        exact ⟨g', List.mem_cons_of_mem g mem, part⟩
      · cases none

/-- Compiling a shallow filter does not meet the nesting limit: only operands are refused. -/
theorem exists_operand_of_encodeAt_eq_error {g : Filter Value} {n : Nat} {e : CompileError}
    (shallow : n + g.depth ≤ maxDepth) (failed : g.encodeAt n = .error e) :
    ∃ column cause, e = .operand column cause := by
  induction g generalizing n with
  | clause c =>
    rw [encodeAt, encodeClause] at failed
    cases wire : c.operand.encode with
    | ok operand =>
      rw [wire] at failed
      cases failed
    | error cause =>
      rw [wire] at failed
      cases failed
      exact ⟨c.column, cause, rfl⟩
  | node k gs ih =>
    rw [depth] at shallow
    rw [encodeAt] at failed
    obtain deep | ⟨_, _, failed⟩ := Except.bind_eq_error.mp failed
    · have := (checkDepth_eq_error.mp deep).1
      omega
    · obtain part | ⟨_, _, none⟩ := Except.bind_eq_error.mp failed
      · obtain ⟨g, mem, one⟩ := exists_of_encodeAllAt_eq_error part
        have := depthAll_le_iff.mp (Nat.le_refl _) g mem
        exact ih g mem (by omega) one
      · cases none

theorem resolve_ne_tooDeep_of_shallow (shallow : f.depth ≤ maxDepth) :
    f.resolve b ≠ .error (.filter .tooDeep) := by
  rw [ne_eq, ← Except.error?_eq_some, error?_resolve_of_shallow shallow]
  intro first
  obtain ⟨p, _, offence⟩ := List.exists_of_findSome?_eq_some first
  obtain ⟨c, _, refused⟩ := offence?_eq_some.mp offence
  cases refused

theorem exists_flaw_of_parse {e : FilterError} (refused : parse source = .error e) :
    ∃ o flaw, e = .malformed o flaw := by
  obtain failed | ⟨ls, _, failed⟩ := Except.bind_eq_error.mp refused
  · obtain ⟨o, c, rfl⟩ := Lexeme.read_eq_error failed
    exact ⟨o, _, rfl⟩
  · obtain ⟨o, flaw, rfl, _⟩ | ⟨o, rfl, _⟩ := ofLexemes_eq_error failed
    · exact ⟨o, flaw, rfl⟩
    · exact ⟨o, _, rfl⟩

/-- Reading is where filters are found to be too deep. -/
theorem makeMessage_ne_tooDeep : (makeMessage source b).outcome ≠ .error (.filter .tooDeep) ∧
    (makeMessage source b).outcome ≠ .error (.compile (.filter .tooDeep)) := by
  cases read : parse source with
  | error e =>
    rw [makeMessage_of_parse_error read]
    obtain ⟨o, flaw, rfl⟩ := exists_flaw_of_parse read
    simp
  | ok f =>
    have shallow := (expressible_of_parse read).2
    rw [makeMessage_of_parse_ok read]
    cases run : f.resolve b >>= encode with
    | ok d => simp [Except.map, Except.mapError]
    | error e =>
      have other : e ≠ .filter .tooDeep := by
        rintro rfl
        obtain failed | ⟨g, resolved, failed⟩ := Except.bind_eq_error.mp run
        · exact resolve_ne_tooDeep_of_shallow shallow failed
        · obtain rfl := eq_substitute_of_resolveAt resolved
          have room : 0 + (f.substitute b).depth ≤ maxDepth := by
            rwa [Nat.zero_add, depth_substitute]
          obtain ⟨_, _, same⟩ := exists_operand_of_encodeAt_eq_error room failed
          cases same
      simpa [Except.map, Except.mapError] using other

/-- What making a message fails for. It is what reading fails for, or else the leftmost clause whose
operand is not supplied. The nesting limits of reading and of compiling are the same: that of
compiling is not met behind reading, and it is met by filters that have not been read exactly when
that of reading is met by their texts. -/
theorem makeMessage_classifies (b : Bindings) :
    (∀ source e, (makeMessage source b).outcome = .error (.filter e) ↔ parse source = .error e) ∧
    (∀ source f, parse source = .ok f → (∀ c ∈ f.clauses, ∀ v ∈ b.get? c.operand, v.Fits) →
      ((∃ m, (makeMessage source b).outcome = .ok m) ↔
        ∀ c ∈ f.clauses, b.Supplies c.operand)) ∧
    (∀ source f, parse source = .ok f → (¬ ∀ c ∈ f.clauses, b.Supplies c.operand) →
      ∃ before c after e, f.pieces = before ++ .clause c :: after ∧
        Leftmost b source before c after ∧ Refused b c e ∧
        (makeMessage source b).outcome = .error (.compile e)) ∧
    (∀ source, (makeMessage source b).outcome ≠ .error (.filter .tooDeep) ∧
      (makeMessage source b).outcome ≠ .error (.compile (.filter .tooDeep))) ∧
    ∀ n ts, Splits n.text.toList ts → Disjunction ts n →
      (∀ c ∈ n.clauses, b.Supplies c.operand) →
      (n.resolve b = .error (.filter .tooDeep) ↔
        ∃ o, parse n.text = .error (.malformed o .tooDeep)) := by
  refine ⟨fun source e => makeMessage_eq_filter_error_iff,
    fun source f read fits => ⟨fun ⟨m, made⟩ => ?_, exists_message read fits⟩,
    fun source f read => exists_leftmost read, fun source => makeMessage_ne_tooDeep,
    fun n ts splits spelled supplied => ?_⟩
  · by_contra unsupplied
    obtain ⟨_, _, _, _, _, _, _, failed⟩ := exists_leftmost read unsupplied
    cases made.symm.trans failed
  · rw [resolve_tooDeep_iff supplied, parse_tooDeep_iff splits spelled]

/-- Negations can be written however many there are. -/
theorem Expressible.negated (h : f.Expressible) (negation : f.IsNegation) (n : Nat) :
    let g := Nat.repeat Filter.not n f
    g.Expressible ∧ g.IsNegation ∧ g.depth = f.depth + n ∧ g.clauses = f.clauses := by
  induction n with
  | zero => exact ⟨h, negation, rfl, rfl⟩
  | succ n ih =>
    obtain ⟨expressible, negation, depth, clauses⟩ := ih
    refine ⟨.node negation (by simpa using expressible), .inr rfl, ?_, ?_⟩
    · simp [Nat.repeat, Filter.not, Filter.depth, depthAll, depth, Nat.add_assoc]
    · simp [Nat.repeat, Filter.not, Filter.clauses, clausesAll, clauses]

theorem makeMessage_classifies_unbound :
    let b : Bindings := .ofList [("x", .int 1), ("z", .null)]
    let source := "a==@x true AND NOT b<@y false OR c>@z true"
    let deep := Nat.repeat Filter.not 101 (.clause ⟨"a", .equal, "x", true, none⟩)
    (∃ m, (makeMessage "a==@x true" b).outcome = .ok m) ∧
      (∃ before c after, Leftmost b source before c after ∧ Refused b c (.missingParameter "y") ∧
        (makeMessage source b).outcome = .error (.compile (.missingParameter "y"))) ∧
      deep.resolve b = .error (.filter .tooDeep) ∧
      ∃ o, parse deep.text = .error (.malformed o .tooDeep) := by
  intro b source deep
  obtain ⟨_, made, blamed, _, limits⟩ := makeMessage_classifies b
  have bound : b.Supplies "x" := ⟨.int 1, by decide +kernel, by simp, by simp⟩
  have one : parse "a==@x true" = .ok (.clause ⟨"a", .equal, "x", true, none⟩) := by decide +kernel
  have all : parse source = .ok (((clause ⟨"a", .equal, "x", true, none⟩).and
      (clause ⟨"b", .less, "y", false, none⟩).not).or
        (.clause ⟨"c", .greater, "z", true, none⟩)) := by
    decide +kernel
  have outcome : (makeMessage source b).outcome = .error (.compile (.missingParameter "y")) := by
    decide +kernel
  refine ⟨(made _ _ one (by decide +kernel)).mpr (by simpa [clauses] using bound), ?_, ?_⟩
  · have unbound : ¬ b.Supplies "y" := by
      rintro ⟨v, bound, _⟩
      have none : b.get? "y" = none := by decide +kernel
      cases none.symm.trans bound
    obtain ⟨before, c, after, e, _, leftmost, refused, failed⟩ :=
      blamed _ _ all fun supplied => unbound (supplied ⟨"b", .less, "y", false, none⟩ (by
        simp [clauses, clausesAll, Filter.and, Filter.or, Filter.not]))
    obtain rfl : CompileError.missingParameter "y" = e := by simpa [outcome] using failed
    exact ⟨before, c, after, leftmost, refused, outcome⟩
  · obtain ⟨expressible, _, depth, clauses⟩ := (expressible_of_parse one).1.negated (.inl rfl) 101
    have supplied : ∀ c ∈ deep.clauses, b.Supplies c.operand :=
      fun c hc => by simp_all [deep, Filter.clauses]
    obtain ⟨ts, spelled⟩ := expressible.spelled
    have refused : deep.resolve b = .error (.filter .tooDeep) :=
      (resolve_tooDeep_iff supplied).mpr (depth ▸ by decide)
    exact ⟨refused, (limits _ ts spelled.splits spelled.disjunction supplied).mp refused⟩

end TableWire.Filter
