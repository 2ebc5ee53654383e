import TableWire.Proofs.Filter.Syntax
/-!
The grammar of filter texts as an automaton. Which tokens may come next depends on nothing but the
stage that has been reached: `recognises_disjunction`. From every stage a filter can be completed,
so the beginnings of filters are the tokens that lead anywhere: `Recognises.viable_iff`.
-/

namespace TableWire.Filter

/-- The part of a filter that comes next. -/
inductive Stage : Type
  | operand
  | comparison
  | atSign
  | parameter
  | flag
  | secondFlag
  | connective

namespace Stage

/-- A filter may end here, or go on with a connective. -/
def Complete : Stage → Prop
  | .secondFlag | .connective => True
  | .operand | .comparison | .atSign | .parameter | .flag => False

/-- The token is the part of an operand that comes at the first stage, and leads to the second. -/
inductive Next : Stage → Token → Stage → Prop
  | not : Next .operand (.keyword .not) .operand
  | column {w : String} : (∀ k : Connective, w ≠ k.text) → Next .operand (.word w) .comparison
  | comparison {c : Comparison} : Next .comparison (.operator c.text) .atSign
  | atSign : Next .atSign .atSign .parameter
  | parameter {w : String} : Next .parameter (.word w) .flag
  | flag {b : Bool} : Next .flag (.flag b) .secondFlag
  | secondFlag {b : Bool} : Next .secondFlag (.flag b) .connective

end Stage

/-- The token leads from one stage to another, if operands are joined by the connectives `K`. -/
inductive Step (K : List Connective) : Stage → Token → Stage → Prop
  | part {s s' : Stage} {t : Token} : s.Next t s' → Step K s t s'
  | join {s : Stage} {k : Connective} : s.Complete → k ∈ K → Step K s (.keyword k) .operand

/-- The tokens lead from one stage to another. -/
inductive Path (K : List Connective) : Stage → List Token → Stage → Prop
  | nil {s : Stage} : Path K s [] s
  | cons {s s' s'' : Stage} {t : Token} {ts : List Token} :
    Step K s t s' → Path K s' ts s'' → Path K s (t :: ts) s''

variable {K : List Connective} {k : Connective} {s s' s'' : Stage} {t : Token}
  {ts us : List Token}

theorem flag_ne_keyword (b : Bool) (k : Connective) : Token.flag b ≠ .keyword k := by
  cases b <;> cases k <;> decide

namespace Stage

theorem Next.right_unique (h : s.Next t s') (h' : s.Next t s'') : s' = s'' := by
  generalize same : t = t' at h'
  cases h with
  | not =>
    cases h' with
    | not => rfl
    | column word => exact absurd (Token.word.inj same).symm (word .not)
  | column word =>
    cases h' with
    | not => exact absurd (Token.word.inj same) (word .not)
    | column => rfl
  | comparison => cases h'; rfl
  | atSign => cases h'; rfl
  | parameter => cases h'; rfl
  | flag => cases h'; rfl
  | secondFlag => cases h'; rfl

/-- Where a filter may end, no part of an operand looks like a connective. -/
theorem Complete.not_next (complete : s.Complete) : ¬ s.Next (.keyword k) s' := by
  intro next
  generalize same : Token.keyword k = t at next
  cases next with
  | secondFlag => exact flag_ne_keyword _ _ same.symm
  | _ => exact complete

end Stage

namespace Step

theorem right_unique (h : Step K s t s') (h' : Step K s t s'') : s' = s'' := by
  generalize same : t = t' at h'
  cases h with
  | part next =>
    cases h' with
    | part next' => exact next.right_unique (same ▸ next')
    | join complete => exact absurd (same ▸ next) complete.not_next
  | join complete =>
    cases h' with
    | part next => exact absurd (same ▸ next) complete.not_next
    | join => rfl

theorem next (h : Step [] s t s') : s.Next t s' := by
  cases h with
  | part next => exact next
  | join _ nowhere => cases nowhere

theorem mono (h : Step K s t s') (k : Connective) : Step (k :: K) s t s' := by
  cases h with
  | part next => exact .part next
  | join complete mem => exact .join complete (List.mem_cons_of_mem k mem)

/-- With one connective more, the steps at this connective are added. -/
theorem of_cons (h : Step (k :: K) s t s') :
    Step K s t s' ∨ (s.Complete ∧ t = .keyword k ∧ s' = .operand) := by
  cases h with
  | part next => exact .inl (.part next)
  | join complete mem =>
    rcases List.mem_cons.mp mem with rfl | mem
    · exact .inr ⟨complete, rfl, rfl⟩
    · exact .inl (.join complete mem)

end Step

namespace Path

theorem append (h : Path K s ts s') (h' : Path K s' us s'') : Path K s (ts ++ us) s'' := by
  induction h with
  | nil => exact h'
  | cons step _ ih => exact .cons step (ih h')

theorem singleton : Path K s [t] s' ↔ Step K s t s' := by
  constructor
  · rintro (_ | ⟨step, _ | _⟩)
    exact step
  · exact fun step => .cons step .nil

/-- What follows tokens follows the stage that they lead to. -/
theorem of_append (h : Path K s ts s') (all : Path K s (ts ++ us) s'') : Path K s' us s'' := by
  induction h with
  | nil => exact all
  | cons step _ ih =>
    cases all with
    | cons step' all =>
      obtain rfl := step.right_unique step'
      exact ih all

theorem right_unique (h : Path K s ts s') (h' : Path K s ts s'') : s' = s'' := by
  cases h.of_append ((List.append_nil ts).symm ▸ h')
  rfl

theorem exists_of_append (h : Path K s (ts ++ us) s'') : ∃ s', Path K s ts s' := by
  induction ts generalizing s with
  | nil => exact ⟨s, .nil⟩
  | cons t ts ih =>
    cases h with
    | cons step h => exact (ih h).imp fun _ => .cons step

theorem mono (h : Path K s ts s') (k : Connective) : Path (k :: K) s ts s' := by
  induction h with
  | nil => exact .nil
  | cons step _ ih => exact .cons (step.mono k) ih

/-- A path does without the connective, from the last time on that it is used. -/
theorem last_join (h : Path (k :: K) s ts s') : Path K s ts s' ∨
    ∃ us vs s'', ts = us ++ .keyword k :: vs ∧ Path (k :: K) s us s'' ∧ s''.Complete ∧
      Path K .operand vs s' := by
  induction h with
  | nil => exact .inl .nil
  | @cons s _ _ t ts step path ih =>
    rcases ih with onward | ⟨us, vs, s'', rfl, before, complete, after⟩
    · rcases step.of_cons with step | ⟨complete, rfl, rfl⟩
      · exact .inl (.cons step onward)
      · exact .inr ⟨[], ts, s, rfl, .nil, complete, onward⟩
    · exact .inr ⟨t :: us, vs, s'', rfl, .cons step before, complete, after⟩

end Path

/-- The automaton accepts the tokens that spell something. -/
def Recognises (K : List Connective) (P : List Token → Filter String → Prop) : Prop :=
  ∀ ts, (∃ f, P ts f) ↔ ∃ s, Path K .operand ts s ∧ s.Complete

/-- Tokens with which something that is spelled begins. -/
def Viable (P : List Token → Filter String → Prop) (ts : List Token) : Prop :=
  ∃ us f, P (ts ++ us) f

theorem path_clause {c : Clause String} (word : ∀ k : Connective, c.column ≠ k.text) :
    ∃ s, Path K .operand c.tokens s ∧ s.Complete ∧ (s = .secondFlag → c.latestOnly = none) := by
  obtain ⟨column, comparison, operand, passIfMissing, latest⟩ := c
  have first : Path K .operand [.word column, .operator comparison.text, .atSign, .word operand,
      .flag passIfMissing] .secondFlag :=
    .cons (.part (.column word)) <| .cons (.part .comparison) <| .cons (.part .atSign) <|
      .cons (.part .parameter) <| .cons (.part .flag) .nil
  cases latest with
  | none => exact ⟨.secondFlag, first, trivial, fun _ => rfl⟩
  | some b => exact ⟨.connective, first.append (.cons (.part .secondFlag) .nil), trivial, nofun⟩

/-- Without connectives, an operand that is not complete goes on with its next part. -/
theorem Path.next (path : Path [] s ts s') (complete : s'.Complete) (goes_on : ¬ s.Complete) :
    ∃ t us s'', ts = t :: us ∧ s.Next t s'' ∧ Path [] s'' us s' := by
  cases path with
  | nil => exact absurd complete goes_on
  | cons step path => exact ⟨_, _, _, rfl, step.next, path⟩

/-- What leads on from a column to the end of an operand is the rest of a clause. -/
theorem clause_of_path (column : String) (path : Path [] .comparison ts s) (complete : s.Complete) :
    ∃ c : Clause String, c.column = column ∧ c.tokens = .word column :: ts := by
  obtain ⟨_, _, _, rfl, next, path⟩ := path.next complete id
  cases next with | @comparison comparison =>
  obtain ⟨_, _, _, rfl, next, path⟩ := path.next complete id
  cases next
  obtain ⟨_, _, _, rfl, next, path⟩ := path.next complete id
  cases next with | @parameter operand =>
  obtain ⟨_, _, _, rfl, next, path⟩ := path.next complete id
  cases next with | @flag passIfMissing =>
  let c (latest : Option Bool) : Clause String :=
    ⟨column, comparison, operand, passIfMissing, latest⟩
  cases path with
  | nil => exact ⟨c none, rfl, rfl⟩
  | cons step path =>
    cases step.next with | @secondFlag latest =>
    cases path with
    | nil => exact ⟨c (some latest), rfl, rfl⟩
    | cons step _ => cases step.next

theorem recognises_negation : Recognises [] Negation := by
  intro ts
  constructor
  · rintro ⟨f, spelled⟩
    induction spelled with
    | clause word =>
      obtain ⟨s, path, complete, _⟩ := path_clause word
      exact ⟨s, path, complete⟩
    | not _ ih => exact ih.imp fun _ h => ⟨.cons (.part .not) h.1, h.2⟩
  · rintro ⟨s, path, complete⟩
    induction ts with
    | nil =>
      cases path
      exact complete.elim
    | cons t ts ih =>
      obtain ⟨_, _, _, ⟨⟩, next, path⟩ := path.next complete id
      cases next with
      | not =>
        obtain ⟨f, spelled⟩ := ih path
        exact ⟨f.not, .not spelled⟩
      | @column w word =>
        obtain ⟨c, rfl, spelled⟩ := clause_of_path w path complete
        exact ⟨.clause c, spelled ▸ .clause word⟩

/-- If operands are recognised, then with one connective more chains of them are. -/
theorem Recognises.chain {P : List Token → Filter String → Prop} (h : Recognises K P)
    (k : Connective) : Recognises (k :: K) (Chain k P) := by
  intro ts
  constructor
  · rintro ⟨f, spelled⟩
    induction spelled with
    | single spelled =>
      obtain ⟨s, path, complete⟩ := (h _).mp ⟨_, spelled⟩
      exact ⟨s, path.mono k, complete⟩
    | join _ spelled ih =>
      obtain ⟨s, before, complete⟩ := ih
      obtain ⟨s', after, complete'⟩ := (h _).mp ⟨_, spelled⟩
      have join : Step (k :: K) s (.keyword k) .operand := .join complete List.mem_cons_self
      exact ⟨s', before.append (.cons join (after.mono k)), complete'⟩
  · rintro ⟨s, path, complete⟩
    induction size : ts.length using Nat.strong_induction_on generalizing ts s with
    | _ n ih =>
      rcases path.last_join with path | ⟨us, vs, s', rfl, before, complete', after⟩
      · obtain ⟨f, spelled⟩ := (h _).mpr ⟨s, path, complete⟩
        exact ⟨f, .single spelled⟩
      · have shorter : us.length < n := by simp [← size]
        obtain ⟨f, left⟩ := ih _ shorter us s' before complete' rfl
        obtain ⟨g, right⟩ := (h _).mpr ⟨s, after, complete⟩
        exact ⟨_, left.join right⟩

theorem recognises_conjunction : Recognises [.and] Conjunction := recognises_negation.chain .and

theorem recognises_disjunction : Recognises [.or, .and] Disjunction :=
  recognises_conjunction.chain .or

/-- From every stage a filter can be completed. -/
theorem exists_completion (s : Stage) : ∃ ts s', Path K s ts s' ∧ s'.Complete := by
  have flag : Path K .flag [.flag true] .secondFlag := .cons (.part .flag) .nil
  have parameter : Path K .parameter [.word "x", .flag true] .secondFlag :=
    .cons (.part .parameter) flag
  have atSign : Path K .atSign [.atSign, .word "x", .flag true] .secondFlag :=
    .cons (.part .atSign) parameter
  have comparison : Path K .comparison
      [.operator Comparison.equal.text, .atSign, .word "x", .flag true] .secondFlag :=
    .cons (.part .comparison) atSign
  have word (k : Connective) : "x" ≠ k.text := by cases k <;> decide
  cases s with
  | operand => exact ⟨_, _, .cons (.part (.column word)) comparison, trivial⟩
  | comparison => exact ⟨_, _, comparison, trivial⟩
  | atSign => exact ⟨_, _, atSign, trivial⟩
  | parameter => exact ⟨_, _, parameter, trivial⟩
  | flag => exact ⟨_, _, flag, trivial⟩
  | secondFlag => exact ⟨_, _, .nil, trivial⟩
  | connective => exact ⟨_, _, .nil, trivial⟩

theorem Recognises.viable_iff {P : List Token → Filter String → Prop} (h : Recognises K P) :
    Viable P ts ↔ ∃ s, Path K .operand ts s := by
  constructor
  · rintro ⟨us, f, spelled⟩
    obtain ⟨_, path, _⟩ := (h _).mp ⟨f, spelled⟩
    exact path.exists_of_append
  · rintro ⟨s, path⟩
    obtain ⟨us, s', path', complete⟩ := exists_completion s
    exact ⟨us, (h _).mpr ⟨s', path.append path', complete⟩⟩

end TableWire.Filter
