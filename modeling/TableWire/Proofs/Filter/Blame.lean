import TableWire.Proofs.Filter.Places
import TableWire.Proofs.Filter.Refusal
/-!
The places that errors about filter texts point at: the first character at which no token starts, or
else the first token with which no filter goes on, or the connective that makes a filter too deep.
-/

namespace TableWire

namespace Filter

open Lexeme

variable {stop : Nat} {ts : List Lexeme} {e : FilterError}

/-- The offset of the first lexeme that no filter has behind those before it, or the end, where the
lexemes begin a filter and are none yet. -/
inductive Offends (stop : Nat) : List Lexeme → Nat → Prop
  | token {before after : List Lexeme} {t : Lexeme} : Viable Disjunction (tokens before) →
    ¬ Viable Disjunction (tokens before ++ [t.token]) → Offends stop (before ++ t :: after) t.offset
  | stop {ls : List Lexeme} : Viable Disjunction (tokens ls) →
    (¬ ∃ f, Disjunction (tokens ls) f) → Offends stop ls stop

/-- The offset of a NOT, an AND or an OR that adds one level more than a filter may have. -/
def TooDeep : List Lexeme → Nat → Prop :=
  Excess .or Conjunction (Excess .and Negation (ExcessNot maxDepth))

theorem readConjunction_greedy : Greedy (readConjunction stop) Conjunction :=
  readChain_greedy recognises_negation (counts_readNegation _) readNegation_greedy

theorem readDisjunction_greedy : Greedy (readDisjunction stop) Disjunction :=
  readChain_greedy recognises_conjunction (counts_readConjunction _) readConjunction_greedy

theorem readDisjunction_refuses : Refuses stop [.or, .and] (readDisjunction stop) 0 TooDeep :=
  readChain_refuses recognises_conjunction (counts_readConjunction _) readConjunction_greedy <|
    readChain_refuses recognises_negation (counts_readNegation _) readNegation_greedy <|
      readNegation_refuses (Nat.zero_le _)

theorem Stuck.offends (stuck : Stuck stop [.or, .and] .operand ts e) :
    ∃ o flaw, e = .malformed o flaw ∧ flaw ≠ .tooDeep ∧ Offends stop ts o := by
  obtain ⟨before, after, s, rfl, path, incomplete, ⟨⟨flaw, shape, rfl⟩, blocked⟩⟩ := stuck
  have viable : Viable Disjunction (tokens before) :=
    recognises_disjunction.viable_iff.mpr ⟨s, path⟩
  refine ⟨_, flaw, rfl, shape, ?_⟩
  cases after with
  | nil =>
    rw [List.append_nil]
    refine .stop viable fun spelled => ?_
    obtain ⟨s', path', complete⟩ := (recognises_disjunction _).mp spelled
    obtain rfl := path.right_unique path'
    exact incomplete complete
  | cons t after =>
    obtain ⟨o, t⟩ := t
    refine .token viable fun further => ?_
    obtain ⟨s', path'⟩ := recognises_disjunction.viable_iff.mp further
    cases Path.singleton.mp (path.of_append path') with
    | part next => exact blocked _ rfl s' next
    | join complete => exact incomplete complete

theorem ofLexemes_eq_error (run : ofLexemes stop ts = .error e) :
    (∃ o flaw, e = .malformed o flaw ∧ flaw ≠ .tooDeep ∧ Offends stop ts o) ∨
      ∃ o, e = .malformed o .tooDeep ∧ TooDeep ts o := by
  rcases Except.bind_eq_error.mp run with failed | ⟨⟨r, rest⟩, read, failed⟩
  · exact (readDisjunction_refuses ts e failed).imp_left Stuck.offends
  · obtain ⟨f, rfl⟩ := counts_readDisjunction _ _ _ _ _ read
    obtain ⟨ls, rfl, spelled, _, ended⟩ := readDisjunction_greedy _ _ _ read
    cases rest with
    | nil => cases failed
    | cons t rest =>
      cases failed
      refine .inl ⟨t.offset, .trailing t.token, rfl, nofun, .token ⟨[], f, ?_⟩ (ended t rfl)⟩
      rwa [List.append_nil]

theorem Excess.mem {k : Connective} {P : List Token → Filter String → Prop}
    {Deep : List Lexeme → Nat → Prop} {o : Nat} (h : Excess k P Deep ts o)
    (mem : ∀ {ts o}, Deep ts o → ∃ t ∈ ts, t.offset = o) : ∃ t ∈ ts, t.offset = o := by
  cases h with
  | operand _ deep =>
    obtain ⟨t, ht, same⟩ := mem deep
    exact ⟨t, List.mem_append_right _ ht, same⟩
  | join => exact ⟨_, List.mem_append_right _ List.mem_cons_self, rfl⟩

theorem TooDeep.mem {o : Nat} (h : TooDeep ts o) : ∃ t ∈ ts, t.offset = o := by
  refine Excess.mem h fun deep => Excess.mem deep fun deep => ?_
  cases deep
  exact ⟨_, List.mem_append_right _ List.mem_cons_self, rfl⟩

theorem Offends.mem {o : Nat} (h : Offends stop ts o) : o = stop ∨ ∃ t ∈ ts, t.offset = o := by
  cases h with
  | token => exact .inr ⟨_, List.mem_append_right _ List.mem_cons_self, rfl⟩
  | stop => exact .inl rfl

/-- What the place of a flaw in a text tells. The scan of the text meets a character that can start
no token, or it comes to the end. -/
structure FlawAt (source : String) (o : Nat) (flaw : Flaw) : Prop where
  boundary : String.Pos.Raw.IsValid source ⟨o⟩
  inside : o ≤ Utf8.length source
  scanned : (∃ ls p c rest, Scans 0 source.toList ls p (c :: rest) ∧ Token.StartsNone c) ∨
    ∃ ls p, Scans 0 source.toList ls p []
  character : ∀ ls p c rest, Scans 0 source.toList ls p (c :: rest) → Token.StartsNone c → o = p
  token : ∀ ls p, Scans 0 source.toList ls p [] → flaw ≠ .tooDeep →
    Offends (Utf8.length source) ls o
  nesting : ∀ ls p, Scans 0 source.toList ls p [] → flaw = .tooDeep → TooDeep ls o

theorem le_length_of_isValid {source : String} {o : Nat}
    (h : String.Pos.Raw.IsValid source ⟨o⟩) : o ≤ Utf8.length source := h.le_rawEndPos

/-- A character that starts no token is the flaw, whatever stands before and behind it. -/
theorem flawAt_of_startsNone {source : String} {p : Nat} {c : Char} {rest : List Char}
    (scans : Scans 0 source.toList ts p (c :: rest)) (starts : Token.StartsNone c) :
    FlawAt source p (.unexpectedCharacter c) where
  boundary := scans.isValid
  inside := le_length_of_isValid scans.isValid
  scanned := .inl ⟨ts, p, c, rest, scans, starts⟩
  character ls p' c' rest' scans' starts' := by
    have same := (scans.read_of_startsNone starts).symm.trans (scans'.read_of_startsNone starts')
    cases same
    rfl
  token ls p' scans' := by
    cases (scans.read_of_startsNone starts).symm.trans scans'.read_of_end
  nesting ls p' scans' := by
    cases (scans.read_of_startsNone starts).symm.trans scans'.read_of_end

/-- Where all of the text is tokens, these decide. -/
theorem flawAt_of_end {source : String} {p o : Nat} {flaw : Flaw}
    (scans : Scans 0 source.toList ts p []) (boundary : String.Pos.Raw.IsValid source ⟨o⟩)
    (token : flaw ≠ .tooDeep → Offends (Utf8.length source) ts o)
    (nesting : flaw = .tooDeep → TooDeep ts o) : FlawAt source o flaw where
  boundary := boundary
  inside := le_length_of_isValid boundary
  scanned := .inr ⟨ts, p, scans⟩
  character ls p' c rest scans' starts := by
    cases scans.read_of_end.symm.trans (scans'.read_of_startsNone starts)
  token ls p' scans' := by
    obtain rfl := Except.ok.inj (scans.read_of_end.symm.trans scans'.read_of_end)
    exact token
  nesting ls p' scans' := by
    obtain rfl := Except.ok.inj (scans.read_of_end.symm.trans scans'.read_of_end)
    exact nesting

/-- Texts are only refused for flaws, and the offset of a flaw is that of the first character that
can start no token, or else of the first token with which no filter goes on, or else of the
connective that makes the filter too deep. -/
theorem parse_blames {source : String} (refused : parse source = .error e) :
    ∃ o flaw, e = .malformed o flaw ∧ FlawAt source o flaw := by
  obtain ⟨ls, p, rest, scans, stuck⟩ := exists_scans 0 source.toList
  cases rest with
  | cons c rest =>
    have starts : Token.StartsNone c := stuck c rfl
    rw [parse, scans.read_of_startsNone starts] at refused
    cases refused
    exact ⟨p, _, rfl, flawAt_of_startsNone scans starts⟩
  | nil =>
    rw [parse, scans.read_of_end] at refused
    rcases ofLexemes_eq_error refused with ⟨o, flaw, rfl, shape, offends⟩ | ⟨o, rfl, deep⟩
    · refine ⟨o, flaw, rfl, flawAt_of_end scans ?_ (fun _ => offends) (absurd · shape)⟩
      rcases offends.mem with rfl | mem
      · exact String.Pos.Raw.isValid_rawEndPos
      · exact scans.isValid_of_mem mem
    · have boundary := scans.isValid_of_mem deep.mem
      exact ⟨o, _, rfl, flawAt_of_end scans boundary (absurd rfl) fun _ => deep⟩

theorem parse_blames_flag :
    parse "a == @x AND b" = .error (.malformed 8 (.expected .flag (some (.word "AND")))) ∧
      FlawAt "a == @x AND b" 8 (.expected .flag (some (.word "AND"))) := by
  have refused : parse "a == @x AND b" =
      .error (.malformed 8 (.expected .flag (some (.word "AND")))) := by decide +kernel
  obtain ⟨o, flaw, same, flawAt⟩ := parse_blames refused
  cases same
  exact ⟨refused, flawAt⟩

end Filter

end TableWire
