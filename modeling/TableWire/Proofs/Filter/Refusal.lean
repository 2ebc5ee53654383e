import TableWire.Proofs.Filter.Stages
/-!
Where the readers of filter texts stop. A reader that succeeds has read all that it could. One that
fails stands in front of the first lexeme with which nothing can go on, or the filter is too deep.
-/

namespace TableWire.Filter

open Lexeme

variable {K : List Connective} {stop : Nat} {s s' : Stage} {ts us rest : List Lexeme}
  {e : FilterError}

/-- The offset of what comes next, a lexeme or the end of the text. -/
def nextOffset (stop : Nat) : List Lexeme → Nat
  | [] => stop
  | t :: _ => t.offset

/-- The error is met in front of `ts`, which goes on with no part that may come at the stage. -/
structure Blocked (stop : Nat) (s : Stage) (ts : List Lexeme) (e : FilterError) : Prop where
  malformed : ∃ flaw, flaw ≠ .tooDeep ∧ e = .malformed (nextOffset stop ts) flaw
  blocked : ∀ t ∈ ts.head?, ∀ s', ¬ s.Next t.token s'

theorem expected_malformed (stop : Nat) (part : ClausePart) (ts : List Lexeme) :
    ∃ flaw, flaw ≠ .tooDeep ∧ expected stop part ts = .malformed (nextOffset stop ts) flaw := by
  cases ts with
  | nil => exact ⟨.expected part none, nofun, rfl⟩
  | cons t _ => exact ⟨.expected part (some t.token), nofun, rfl⟩

section Part

variable {α : Type} {p : Reader α}

/-- From `ts` the reader takes a part that leads from one stage to another. -/
structure ReadsPart (stop : Nat) (p : Reader α) (s s' : Stage) (ts : List Lexeme) : Prop where
  ok : ∀ {a rest}, p ts = .ok (a, rest) → ∃ t, ts = t :: rest ∧ s.Next t.token s'
  error : ∀ {e}, p ts = .error e → Blocked stop s ts e

/-- A reader that takes all parts that may come only fails in front of other ones. -/
theorem blocked_of_takes
    (malformed : ∃ flaw, flaw ≠ .tooDeep ∧ e = .malformed (nextOffset stop ts) flaw)
    (takes : ∀ t us s', ts = t :: us → s.Next t.token s' → ∃ a, p ts = .ok (a, us))
    (run : p ts = .error e) : Blocked stop s ts e where
  malformed := malformed
  blocked t ht s' next := by
    obtain ⟨us, rfl⟩ := List.head?_eq_some_iff.mp ht
    obtain ⟨a, taken⟩ := takes t us s' rfl next
    cases run.symm.trans taken

end Part

theorem readColumn_part (no_not : ∀ o us, ts ≠ ⟨o, .keyword .not⟩ :: us) :
    ReadsPart stop (readColumn stop) .operand .comparison ts where
  ok run := by
    obtain ⟨word, o, rfl⟩ := readColumn_eq_ok.mp run
    exact ⟨_, rfl, .column word⟩
  error run := by
    refine blocked_of_takes ?_ ?_ run
    · unfold readColumn at run
      split at run
      · split at run <;> cases run
        exact expected_malformed _ _ _
      · cases run
        exact expected_malformed _ _ _
    · rintro ⟨o, t⟩ us s' rfl next
      cases next with
      | not => exact absurd rfl (no_not o us)
      | column word => exact ⟨_, readColumn_eq_ok.mpr ⟨word, o, rfl⟩⟩

theorem readComparison_part (ts : List Lexeme) :
    ReadsPart stop (readComparison stop) .comparison .atSign ts where
  ok run := by
    obtain ⟨o, rfl⟩ := readComparison_eq_ok.mp run
    exact ⟨_, rfl, .comparison⟩
  error run := by
    refine blocked_of_takes ?_ ?_ run
    · unfold readComparison at run
      split at run
      · next op _ =>
        split at run <;> cases run
        exact ⟨.unknownComparison op, nofun, rfl⟩
      · cases run
        exact expected_malformed _ _ _
    · rintro ⟨o, t⟩ us s' rfl next
      cases next with
      | comparison => exact ⟨_, readComparison_eq_ok.mpr ⟨o, rfl⟩⟩

theorem readAtSign_part (ts : List Lexeme) :
    ReadsPart stop (readAtSign stop) .atSign .parameter ts where
  ok run := by
    obtain ⟨o, rfl⟩ := readAtSign_eq_ok.mp run
    exact ⟨_, rfl, .atSign⟩
  error run := by
    refine blocked_of_takes ?_ ?_ run
    · unfold readAtSign at run
      split at run <;> cases run
      exact expected_malformed _ _ _
    · rintro ⟨o, t⟩ us s' rfl next
      cases next with
      | atSign => exact ⟨(), readAtSign_eq_ok.mpr ⟨o, rfl⟩⟩

theorem readParameter_part (ts : List Lexeme) :
    ReadsPart stop (readParameter stop) .parameter .flag ts where
  ok run := by
    obtain ⟨o, rfl⟩ := readParameter_eq_ok.mp run
    exact ⟨_, rfl, .parameter⟩
  error run := by
    refine blocked_of_takes ?_ ?_ run
    · unfold readParameter at run
      split at run <;> cases run
      exact expected_malformed _ _ _
    · rintro ⟨o, t⟩ us s' rfl next
      cases next with
      | parameter => exact ⟨_, readParameter_eq_ok.mpr ⟨o, rfl⟩⟩

theorem readFlag_part (ts : List Lexeme) :
    ReadsPart stop (readFlag stop) .flag .secondFlag ts where
  ok run := by
    obtain ⟨o, rfl⟩ := readFlag_eq_ok.mp run
    exact ⟨_, rfl, .flag⟩
  error run := by
    refine blocked_of_takes ?_ ?_ run
    · unfold readFlag at run
      split at run <;> cases run
      exact expected_malformed _ _ _
    · rintro ⟨o, t⟩ us s' rfl next
      cases next with
      | flag => exact ⟨_, readFlag_eq_ok.mpr ⟨o, rfl⟩⟩

/-- The lexemes lead from the stage to one at which a filter may not end, and what follows there is
not the next part. -/
def Stuck (stop : Nat) (K : List Connective) (s : Stage) (ts : List Lexeme) (e : FilterError) :
    Prop :=
  ∃ before after s', ts = before ++ after ∧ Path K s (tokens before) s' ∧ ¬ s'.Complete ∧
    Blocked stop s' after e

theorem Stuck.behind (path : Path K s (tokens us) s') (h : Stuck stop K s' ts e) :
    Stuck stop K s (us ++ ts) e := by
  obtain ⟨before, after, s'', rfl, path', incomplete, blocked⟩ := h
  refine ⟨us ++ before, after, s'', (List.append_assoc _ _ _).symm, ?_, incomplete, blocked⟩
  simpa [tokens] using path.append path'

theorem Stuck.cons {t : Lexeme} (step : Step K s t.token s') (h : Stuck stop K s' ts e) :
    Stuck stop K s (t :: ts) e := by
  have path : Path K s (tokens [t]) s' := Path.singleton.mpr step
  exact h.behind path

theorem Stuck.mono (h : Stuck stop K s ts e) (k : Connective) : Stuck stop (k :: K) s ts e := by
  obtain ⟨before, after, s', rfl, path, incomplete, blocked⟩ := h
  exact ⟨before, after, s', rfl, path.mono k, incomplete, blocked⟩

/-- After a part that is there, the fault is in what follows. -/
theorem ReadsPart.stuck_of_bind {α β : Type} {p : Reader α}
    {f : α × List Lexeme → Except FilterError β} (part : ReadsPart stop p s s' ts)
    (run : p ts >>= f = .error e) (incomplete : ¬ s.Complete)
    (onward : ∀ a rest, f (a, rest) = .error e → Stuck stop K s' rest e) : Stuck stop K s ts e := by
  rcases Except.bind_eq_error.mp run with failed | ⟨⟨a, rest⟩, taken, failed⟩
  · exact ⟨[], ts, s, rfl, .nil, incomplete, part.error failed⟩
  · obtain ⟨t, rfl, next⟩ := part.ok taken
    exact (onward a rest failed).cons (.part next)

theorem readClause_stuck (no_not : ∀ o us, ts ≠ ⟨o, .keyword .not⟩ :: us)
    (run : readClause stop ts = .error e) : Stuck stop [] .operand ts e := by
  refine (readColumn_part no_not).stuck_of_bind run id fun column ts run => ?_
  refine (readComparison_part ts).stuck_of_bind run id fun comparison ts run => ?_
  refine (readAtSign_part ts).stuck_of_bind run id fun _ ts run => ?_
  refine (readParameter_part ts).stuck_of_bind run id fun operand ts run => ?_
  refine (readFlag_part ts).stuck_of_bind run id fun passIfMissing ts run => ?_
  dsimp only at run
  split at run <;> cases run

/-- What follows `ls` does not go on with it. -/
def Ended (P : List Token → Filter String → Prop) (ls rest : List Lexeme) : Prop :=
  ∀ t ∈ rest.head?, ¬ Viable P (tokens ls ++ [t.token])

/-- Where no NOT is open, the reader reads filters as they are spelled, and all that goes on with
them. -/
def Greedy (p : CountingReader) (P : List Token → Filter String → Prop) : Prop :=
  ∀ ts f rest, p 0 ts = .ok (counted 0 f, rest) →
    ∃ ls, ts = ls ++ rest ∧ P (tokens ls) f ∧ f.depth ≤ maxDepth ∧ Ended P ls rest

/-- Behind `nots` open NOTs, errors of the reader are met where nothing can go on, or else where
`Deep` tells that filters become too deep. -/
def Refuses (stop : Nat) (K : List Connective) (p : CountingReader) (nots : Nat)
    (Deep : List Lexeme → Nat → Prop) : Prop :=
  ∀ ts e, p nots ts = .error e →
    Stuck stop K .operand ts e ∨ ∃ o, e = .malformed o .tooDeep ∧ Deep ts o

theorem readClause_ended {f : Filter String} (run : readClause stop ts = .ok (f, rest)) :
    ∃ ls, ts = ls ++ rest ∧ Negation (tokens ls) f ∧ Ended Negation ls rest := by
  obtain ⟨c, word, rfl, ⟨ls, spelled, rfl⟩, flags⟩ := readClause_eq_ok.mp run
  refine ⟨ls, rfl, spelled ▸ .clause word, fun t ht viable => ?_⟩
  obtain ⟨us, rfl⟩ := List.head?_eq_some_iff.mp ht
  obtain ⟨s, path, complete, last⟩ := path_clause (K := []) word
  obtain ⟨s', path'⟩ := recognises_negation.viable_iff.mp viable
  have next := (Path.singleton.mp (path.of_append (spelled ▸ path'))).next
  obtain ⟨o, t⟩ := t
  cases next with
  | @secondFlag b =>
    have taken : flag? (⟨o, .flag b⟩ :: us) = some (b, us) := flag?_eq_some.mpr ⟨o, rfl⟩
    cases taken.symm.trans (flags (last rfl))
  | _ => exact complete

theorem readNegation_ended {nots : Nat} {f : Filter String}
    (run : readNegation stop nots ts = .ok (counted nots f, rest)) :
    ∃ ls, ts = ls ++ rest ∧ Negation (tokens ls) f ∧ Ended Negation ls rest := by
  induction nots, ts using readNegation.induct generalizing f with
  | case1 nots o ts ih =>
    obtain ⟨_, g, onward, _, same⟩ := readNegation_not_eq_ok.mp run
    obtain rfl := counted_inj.mp same
    obtain ⟨ls, rfl, spelled, ended⟩ := ih _ onward
    refine ⟨⟨o, .keyword .not⟩ :: ls, rfl, .not spelled, fun t ht viable => ended t ht ?_⟩
    obtain ⟨s, path⟩ := recognises_negation.viable_iff.mp viable
    have first : Path [] .operand [.keyword .not] .operand := Path.singleton.mpr (.part .not)
    exact recognises_negation.viable_iff.mpr ⟨s, first.of_append path⟩
  | case2 nots ts no_not =>
    obtain ⟨g, read, same⟩ := (readNegation_clause_eq_ok no_not).mp run
    obtain rfl := counted_inj.mp same
    exact readClause_ended read

theorem readNegation_greedy : Greedy (readNegation stop) Negation := by
  intro ts f rest run
  obtain ⟨_, _, _, shallow⟩ := (readNegation_spells (Nat.zero_le _)).sound run
  obtain ⟨ls, same, spelled, ended⟩ := readNegation_ended run
  exact ⟨ls, same, spelled, shallow, ended⟩

/-- A NOT is refused for want of room in front of its operand, or with it. Behind an operand there
is room: it has as many NOTs as have been opened in it. -/
theorem readNegation_not_eq_error {nots o : Nat} (room : nots ≤ maxDepth)
    (run : readNegation stop nots (⟨o, .keyword .not⟩ :: ts) = .error e) :
    (nots = maxDepth ∧ e = .malformed o .tooDeep) ∨
      (nots < maxDepth ∧ readNegation stop (nots + 1) ts = .error e) := by
  rw [readNegation_not] at run
  rcases Except.bind_eq_error.mp run with failed | ⟨opened, raised, run⟩
  · obtain ⟨full, rfl⟩ := deepen_eq_error.mp failed
    exact .inl ⟨Nat.le_antisymm room full, rfl⟩
  obtain ⟨more, rfl⟩ := deepen_eq_ok.mp raised
  rcases Except.bind_eq_error.mp run with failed | ⟨⟨operand, rest⟩, read, run⟩
  · exact .inr ⟨more, failed⟩
  obtain ⟨f, rfl⟩ := counts_readNegation stop _ _ _ _ read
  obtain ⟨_, _, _, shallow⟩ := (readNegation_spells more).sound read
  rcases Except.bind_eq_error.mp run with full | ⟨_, _, impossible⟩
  · have deep : maxDepth ≤ f.depth := (deepen_eq_error.mp full).1
    omega
  · cases impossible

/-- At the offset stands a NOT, behind as many NOTs at the front as there is room for. -/
inductive ExcessNot (room : Nat) : List Lexeme → Nat → Prop
  | mk {after : List Lexeme} {o : Nat} (nots : List Lexeme) :
    tokens nots = List.replicate room (.keyword .not) →
    ExcessNot room (nots ++ ⟨o, .keyword .not⟩ :: after) o

theorem readNegation_refuses {nots : Nat} (room : nots ≤ maxDepth) :
    Refuses stop [] (readNegation stop) nots (ExcessNot (maxDepth - nots)) := by
  intro ts e run
  induction nots, ts using readNegation.induct with
  | case1 nots o ts ih =>
    rcases readNegation_not_eq_error room run with ⟨rfl, rfl⟩ | ⟨more, failed⟩
    · exact .inr ⟨o, rfl, .mk [] (by simp [tokens])⟩
    rcases ih _ more failed with stuck | ⟨o', rfl, ⟨nots', only⟩⟩
    · exact .inl (stuck.cons (.part .not))
    · have step : maxDepth - nots = maxDepth - (nots + 1) + 1 := by omega
      refine .inr ⟨o', rfl, .mk (⟨o, .keyword .not⟩ :: nots') ?_⟩
      rw [step, List.replicate_succ, ← only]
      rfl
  | case2 nots ts no_not =>
    rw [readNegation_of_ne no_not] at run
    rcases Except.bind_eq_error.mp run with failed | ⟨_, _, impossible⟩
    · exact .inl (readClause_stuck no_not failed)
    · cases impossible

section Chain

variable {k : Connective} {p : CountingReader} {consumes : ∀ nots, Consumes (p nots)}
  {P : List Token → Filter String → Prop}

/-- Tokens behind which an operand of the chain begins. -/
inductive Opens (k : Connective) (P : List Token → Filter String → Prop) : List Token → Prop
  | start : Opens k P []
  | behind {ts : List Token} {f : Filter String} : Chain k P ts f → Opens k P (ts ++ [.keyword k])

theorem Opens.path {ts : List Token} (opens : Opens k P ts) (h : Recognises K P) :
    Path (k :: K) .operand ts .operand := by
  cases opens with
  | start => exact .nil
  | behind chain =>
    obtain ⟨s, path, complete⟩ := (h.chain k _).mp ⟨_, chain⟩
    exact path.append (Path.singleton.mpr (.join complete List.mem_cons_self))

/-- A chain goes on where its last operand does, or with another one. -/
theorem Opens.viable {us vs : List Token} {t : Token} {g : Filter String} (opens : Opens k P us)
    (h : Recognises K P) (operand : P vs g) (viable : Viable (Chain k P) (us ++ vs ++ [t])) :
    Viable P (vs ++ [t]) ∨ t = .keyword k := by
  obtain ⟨s, path⟩ := (h.chain k).viable_iff.mp viable
  obtain ⟨s', path', complete⟩ := (h _).mp ⟨g, operand⟩
  have step := Path.singleton.mp (((opens.path h).append (path'.mono k)).of_append path)
  rcases step.of_cons with step | ⟨_, same, _⟩
  · exact .inl (h.viable_iff.mpr ⟨s, path'.append (Path.singleton.mpr step)⟩)
  · exact .inr same

/-- Where a chain becomes too deep: in one of its operands, as `Deep` tells, or at a connective
between filters that are not too deep, the second of which goes on as far as it can. -/
inductive Excess (k : Connective) (P : List Token → Filter String → Prop)
    (Deep : List Lexeme → Nat → Prop) : List Lexeme → Nat → Prop
  | operand {before rest : List Lexeme} {o : Nat} : Opens k P (tokens before) → Deep rest o →
    Excess k P Deep (before ++ rest) o
  | join {left right after : List Lexeme} {o : Nat} {f g : Filter String} :
    Chain k P (tokens left) f → P (tokens right) g → Ended P right after →
      f.depth ≤ maxDepth → g.depth ≤ maxDepth → (node k [f, g]).depth = maxDepth + 1 →
      Excess k P Deep (left ++ ⟨o, .keyword k⟩ :: (right ++ after)) o

/-- The operands `ls` spell `f`, and have been read to the end of the last one. -/
structure ReadSoFar (k : Connective) (P : List Token → Filter String → Prop) (ls : List Lexeme)
    (f : Filter String) (rest : List Lexeme) : Prop where
  spelled : Chain k P (tokens ls) f
  shallow : f.depth ≤ maxDepth
  ended : ∀ t ∈ rest.head?, Viable (Chain k P) (tokens ls ++ [t.token]) → t.token = .keyword k

variable {ls : List Lexeme} {f g : Filter String} {o : Nat} {Deep : List Lexeme → Nat → Prop}

/-- A chain that has been read to the end of its last operand ends there, or with a connective. -/
theorem Opens.ended (h : Recognises K P) (opens : Opens k P (tokens us)) (operand : P (tokens ls) g)
    (ended : Ended P ls rest) :
    ∀ t ∈ rest.head?, Viable (Chain k P) (tokens (us ++ ls) ++ [t.token]) →
      t.token = .keyword k := by
  intro t ht viable
  rw [tokens, List.map_append] at viable
  exact (opens.viable h operand viable).resolve_left (ended t ht)

namespace ReadSoFar

theorem opens (read : ReadSoFar k P ls f rest) :
    Opens k P (tokens (ls ++ [⟨o, .keyword k⟩])) := by
  simpa [tokens] using Opens.behind read.spelled

/-- One operand more. -/
theorem join (h : Recognises K P) (read : ReadSoFar k P us f (⟨o, .keyword k⟩ :: ts))
    (operand : P (tokens ls) g) (ended : Ended P ls rest)
    (shallow : (node k [f, g]).depth ≤ maxDepth) :
    ReadSoFar k P (us ++ [⟨o, .keyword k⟩] ++ ls) (node k [f, g]) rest where
  spelled := by simpa [tokens] using read.spelled.join operand
  shallow := shallow
  ended := read.opens.ended h operand ended

theorem first (h : Recognises K P) (operand : P (tokens ls) f) (ended : Ended P ls rest)
    (shallow : f.depth ≤ maxDepth) : ReadSoFar k P ls f rest where
  spelled := .single operand
  shallow := shallow
  ended :=
    have opens : Opens k P (tokens []) := .start
    opens.ended h operand ended

/-- Without another connective, nothing goes on with the chain. -/
theorem finished (read : ReadSoFar k P ls f rest) (ends : ChainEnds k rest) :
    Ended (Chain k P) ls rest := by
  rintro ⟨o, t⟩ ht viable
  obtain ⟨us, rfl⟩ := List.head?_eq_some_iff.mp ht
  obtain rfl := read.ended _ ht viable
  exact ends o us rfl

end ReadSoFar

/-- The chain is read as far as it goes. -/
theorem readChainFrom_greedy (h : Recognises K P) (counts : Counts p) (greedy : Greedy p P)
    (read : ReadSoFar k P us f ts)
    (run : readChainFrom k p consumes (counted 0 f) ts = .ok (counted 0 g, rest)) :
    ∃ ls, ts = ls ++ rest ∧ Chain k P (tokens (us ++ ls)) g ∧ g.depth ≤ maxDepth ∧
      Ended (Chain k P) (us ++ ls) rest := by
  generalize begun : counted 0 f = left at run
  fun_induction readChainFrom k p consumes left ts generalizing us f with
  | case1 => cases run
  | case2 => cases run
  | case3 left o ts right ts' operand shorter depth deeper ih =>
    subst begun
    obtain ⟨g', rfl⟩ := counts _ _ _ _ operand
    obtain ⟨shallow, rfl⟩ := deepen_eq_ok.mp deeper
    obtain ⟨ls, rfl, spelled, _, ended⟩ := greedy _ _ _ operand
    have joined := read.join h spelled ended (by rw [depth_join]; exact shallow)
    obtain ⟨ls', rfl, all⟩ := ih joined (counted_join 0 f g').symm run
    refine ⟨⟨o, .keyword k⟩ :: (ls ++ ls'), by simp [Token.keyword], ?_⟩
    simpa using all
  | case4 left o w ts other =>
    obtain ⟨same, rfl⟩ := Prod.mk.inj (Except.ok.inj run)
    obtain rfl := counted_inj.mp (begun.trans same)
    have ends : ChainEnds k (⟨o, .word w⟩ :: ts) := fun _ _ same => other (by cases same; rfl)
    exact ⟨[], rfl, by simpa using ⟨read.spelled, read.shallow, read.finished ends⟩⟩
  | case5 left ts other =>
    obtain ⟨same, rfl⟩ := Prod.mk.inj (Except.ok.inj run)
    obtain rfl := counted_inj.mp (begun.trans same)
    have ends : ChainEnds k _ := fun o us => other o k.text us
    exact ⟨[], rfl, by simpa using ⟨read.spelled, read.shallow, read.finished ends⟩⟩

/-- The chain fails at an operand that fails, or at a connective. -/
theorem readChainFrom_refuses (h : Recognises K P) (counts : Counts p) (greedy : Greedy p P)
    (refuses : Refuses stop K p 0 Deep) (read : ReadSoFar k P us f ts)
    (run : readChainFrom k p consumes (counted 0 f) ts = .error e) :
    Stuck stop (k :: K) .operand (us ++ ts) e ∨
      ∃ o, e = .malformed o .tooDeep ∧ Excess k P Deep (us ++ ts) o := by
  generalize begun : counted 0 f = left at run
  fun_induction readChainFrom k p consumes left ts generalizing us f with
  | case1 left o ts e' operand =>
    subst begun
    cases run
    have behind : us ++ ⟨o, .word k.text⟩ :: ts = us ++ [⟨o, .keyword k⟩] ++ ts := by
      simp [Token.keyword]
    rw [behind]
    rcases refuses ts e operand with stuck | ⟨o', rfl, deep⟩
    · exact .inl ((stuck.mono k).behind (read.opens.path h))
    · exact .inr ⟨o', rfl, .operand read.opens deep⟩
  | case2 left o ts right ts' operand shorter e' full =>
    subst begun
    cases run
    obtain ⟨g, rfl⟩ := counts _ _ _ _ operand
    obtain ⟨ls, rfl, spelled, shallow, ended⟩ := greedy _ _ _ operand
    obtain ⟨deep, rfl⟩ := deepen_eq_error.mp full
    have exact_depth : (node k [f, g]).depth = maxDepth + 1 := by
      have := read.shallow
      have : maxDepth ≤ max f.depth g.depth := deep
      rw [depth_join]
      omega
    exact .inr ⟨o, rfl, .join read.spelled spelled ended read.shallow shallow exact_depth⟩
  | case3 left o ts right ts' operand shorter depth deeper ih =>
    subst begun
    obtain ⟨g, rfl⟩ := counts _ _ _ _ operand
    obtain ⟨shallow, rfl⟩ := deepen_eq_ok.mp deeper
    obtain ⟨ls, rfl, spelled, _, ended⟩ := greedy _ _ _ operand
    have joined := read.join h spelled ended (by rw [depth_join]; exact shallow)
    have onward := ih joined (counted_join 0 f g).symm run
    simpa [Token.keyword] using onward
  | case4 => cases run
  | case5 => cases run

theorem readChain_greedy (h : Recognises K P) (counts : Counts p) (greedy : Greedy p P) :
    Greedy (readChain k p consumes) (Chain k P) := by
  intro ts g rest run
  obtain ⟨⟨left, _⟩, first, onward⟩ := Except.bind_eq_ok.mp run
  obtain ⟨f, rfl⟩ := counts _ _ _ _ first
  obtain ⟨ls, rfl, spelled, shallow, ended⟩ := greedy _ _ _ first
  have read := ReadSoFar.first (k := k) h spelled ended shallow
  obtain ⟨ls', rfl, all⟩ := readChainFrom_greedy h counts greedy read onward
  exact ⟨ls ++ ls', (List.append_assoc _ _ _).symm, all⟩

theorem readChain_refuses (h : Recognises K P) (counts : Counts p) (greedy : Greedy p P)
    (refuses : Refuses stop K p 0 Deep) :
    Refuses stop (k :: K) (readChain k p consumes) 0 (Excess k P Deep) := by
  intro ts e run
  rcases Except.bind_eq_error.mp run with failed | ⟨⟨left, _⟩, first, failed⟩
  · rcases refuses ts e failed with stuck | ⟨o, rfl, deep⟩
    · exact .inl (stuck.mono k)
    · have opens : Opens k P (tokens []) := .start
      exact .inr ⟨o, rfl, .operand opens deep⟩
  · obtain ⟨f, rfl⟩ := counts _ _ _ _ first
    obtain ⟨ls, rfl, spelled, shallow, ended⟩ := greedy _ _ _ first
    have read := ReadSoFar.first (k := k) h spelled ended shallow
    exact readChainFrom_refuses h counts greedy refuses read failed

end Chain

end TableWire.Filter
