import TableWire.Filter.Compiled
import TableWire.Proofs.Filter.Resolution
import TableWire.Proofs.Record.RoundTrip
import TableWire.Proofs.Value.Delimited
/-!
Reading a compiled filter. A filter is compiled when its paths are short enough and its operands fit
their fields, and nothing of it is lost then.
-/

namespace TableWire

namespace Value

/-- A value that is all of the bytes. -/
def readWhole : Bytes → Option Value
  | [] => none
  | code :: payload =>
    match decode code (code :: payload) 1 with
    | .ok (v, size) => if size = (code :: payload).length then some v else none
    | .error _ => none

theorem readWhole_encode {v : Value} {bs : Bytes} (h : v.encode = .ok bs) :
    readWhole bs = some v := by
  obtain ⟨f, _, _, rfl⟩ := encode_eq_ok.mp h
  have read := decode_encode h [] []
  rw [List.nil_append, List.append_nil, List.length_nil, Nat.zero_add, Nat.zero_add] at read
  rw [Form.bytes, readWhole, read]
  exact if_pos rfl

end Value

/-- The record that the word of the kind announces. -/
def Envelope.compiled? (e : Envelope) : Option Compiled := do
  return ⟨← RecordKind.ofCode? e.kind.toInt, e.body⟩

/-- The clause of a record, with the names of codes for the codes. -/
def SingleRecord.clause? (r : SingleRecord) : Option (Clause Value) := do
  return {
    column := r.column
    comparison := ← Comparison.ofCode? r.comparison.toInt
    operand := ← Value.readWhole r.operand
    passIfMissing := r.passIfMissing
    latestOnly := r.latestOnly }

namespace Filter

/-- The filter of a record, with no more than `room` connectives on a path. -/
def readWithin : Nat → Compiled → Option (Filter Value)
  | _, ⟨.single, bs⟩ => do
    return .clause (← (← SingleRecord.decode? bs).clause?)
  | 0, ⟨.composite, _⟩ => none
  | room + 1, ⟨.composite, bs⟩ => do
    let r ← CompositeRecord.decode? bs
    let k ← Connective.ofCode? r.connective.toInt
    return .node k (← r.parts.mapM fun e => e.compiled?.bind (readWithin room))

def readBack (c : Compiled) : Option (Filter Value) := readWithin maxDepth c

/-- The filter that a request carries. -/
def readMessage (bs : Bytes) : Option (Filter Value) := do
  readBack (← (← Envelope.decode? bs).compiled?)

theorem compiled?_envelope (c : Compiled) : c.envelope.compiled? = some c := by
  obtain ⟨k, bs⟩ := c
  cases k <;> rfl

theorem encodeClause_eq_ok {c : Clause Value} {d : Compiled} :
    encodeClause c = .ok d ↔ ∃ bs, c.operand.encode = .ok bs ∧
      (⟨.single, SingleRecord.encode ⟨Int32.ofNat c.comparison.code, c.column, bs, c.passIfMissing,
        c.latestOnly⟩⟩ : Compiled) = d := by
  simp only [encodeClause, Except.bind_eq_ok, Except.pure_eq_ok]
  cases c.operand.encode <;> simp [Except.mapError]

theorem encodeAllAt_eq_ok {n : Nat} {fs : List (Filter Value)} {es : List Envelope} :
    encodeAllAt n fs = .ok es ↔
      ∃ cs, List.Forall₂ (fun f c => encodeAt n f = .ok c) fs cs ∧ cs.map (·.envelope) = es := by
  induction fs generalizing es with
  | nil => simp [encodeAllAt, Except.pure_eq_ok]
  | cons f fs ih =>
    simp only [encodeAllAt, Except.bind_eq_ok, Except.pure_eq_ok, ih]
    constructor
    · rintro ⟨c, first, _, ⟨cs, others, rfl⟩, rfl⟩
      exact ⟨c :: cs, .cons first others, rfl⟩
    · rintro ⟨_, parts, rfl⟩
      cases parts with
      | cons first others => exact ⟨_, first, _, ⟨_, others, rfl⟩, rfl⟩

theorem encodeAt_node_eq_ok {n : Nat} {k : Connective} {fs : List (Filter Value)} {d : Compiled} :
    encodeAt n (.node k fs) = .ok d ↔ n + 1 ≤ maxDepth ∧
      ∃ cs, List.Forall₂ (fun f c => encodeAt (n + 1) f = .ok c) fs cs ∧
        (⟨.composite, CompositeRecord.encode ⟨Int32.ofNat k.code, cs.map (·.envelope)⟩⟩ :
          Compiled) = d := by
  simp only [encodeAt, Except.bind_eq_ok, Except.pure_eq_ok, checkDepth_eq_ok, encodeAllAt_eq_ok]
  grind

/-- Paths may be as long as the writer allows below `n` connectives. -/
theorem exists_encodeAt {f : Filter Value} {n : Nat} (shallow : n + f.depth ≤ maxDepth)
    (fits : ∀ c ∈ f.clauses, c.operand.Fits) : ∃ c, f.encodeAt n = .ok c := by
  induction f generalizing n with
  | clause c =>
    obtain ⟨bs, encoded⟩ := Value.exists_encode (fits c (by simp [clauses]))
    exact ⟨_, encodeClause_eq_ok.mpr ⟨bs, encoded, rfl⟩⟩
  | node k fs ih =>
    have room : n + 1 ≤ maxDepth := by
      simp only [depth] at shallow
      omega
    have parts : ∀ f ∈ fs, ∃ c, f.encodeAt (n + 1) = .ok c := by
      intro f hf
      have below := depthAll_le_iff.mp (Nat.le_refl _) f hf
      refine ih f hf ?_ (forall_clausesAll.mp fits f hf)
      simp only [depth] at shallow
      omega
    have : Nonempty Compiled := ⟨.single, []⟩
    choose! part encoded using parts
    refine ⟨_, encodeAt_node_eq_ok.mpr ⟨room, fs.map part, ?_, rfl⟩⟩
    exact List.forall₂_map_right_iff.mpr (List.forall₂_same.mpr encoded)

theorem mapM_envelopes {read : Compiled → Option (Filter Value)} {fs : List (Filter Value)}
    {cs : List Compiled} (parts : List.Forall₂ (fun f c => read c = some f) fs cs) :
    (cs.map (·.envelope)).mapM (fun e => e.compiled?.bind read) = some fs := by
  induction parts with
  | nil => rfl
  | cons first _ ih =>
    rw [List.map_cons, List.mapM_cons, compiled?_envelope, Option.bind_some, first, ih]
    rfl

theorem readWithin_encodeAt {f : Filter Value} {n : Nat} {c : Compiled} (run : f.encodeAt n = .ok c)
    (short : c.bytes.length < UInt64.size) : readWithin (maxDepth - n) c = some f := by
  induction f generalizing n c with
  | clause c =>
    obtain ⟨bs, encoded, rfl⟩ := encodeClause_eq_ok.mp run
    have code : Comparison.ofCode? (Int32.ofNat c.comparison.code).toInt = some c.comparison := by
      cases c.comparison <;> rfl
    rw [readWithin, SingleRecord.decode?_encode short]
    simp only [SingleRecord.clause?, Option.bind_eq_bind, Option.bind_some, Option.pure_def, code,
      Value.readWhole_encode encoded]
  | node k fs ih =>
    obtain ⟨room, cs, parts, rfl⟩ := encodeAt_node_eq_ok.mp run
    have code : Connective.ofCode? (Int32.ofNat k.code).toInt = some k := by cases k <;> rfl
    have shorter : ∀ c ∈ cs, c.bytes.length < UInt64.size := by
      intro c hc
      refine Nat.lt_trans (Envelope.length_lt_encode c.envelope) (Nat.lt_trans ?_ short)
      exact CompositeRecord.length_lt_encode (List.mem_map_of_mem hc)
    have read : List.Forall₂ (fun f c => readWithin (maxDepth - (n + 1)) c = some f) fs cs := by
      obtain ⟨length, encoded⟩ := List.forall₂_iff_zip.mp parts
      refine List.forall₂_iff_zip.mpr ⟨length, fun {f c} h => ?_⟩
      obtain ⟨hf, hc⟩ := List.of_mem_zip h
      exact ih f hf (encoded h) (shorter c hc)
    have level : maxDepth - n = maxDepth - (n + 1) + 1 := by omega
    rw [level, readWithin, CompositeRecord.decode?_encode short]
    simp only [Option.bind_eq_bind, Option.bind_some, Option.pure_def, code, mapM_envelopes read]

/-- A filter is what its record and its message are read as, and no other has the same ones. The
length of a message is one of 64 bits, as of all byte strings in memory. -/
theorem readBack_encode (f : Filter Value) :
    (f.depth ≤ maxDepth → (∀ c ∈ f.clauses, c.operand.Fits) → ∃ c, f.encode = .ok c) ∧
    ∀ c, f.encode = .ok c → c.message.length < UInt64.size →
      readBack c = some f ∧ readMessage c.message = some f ∧
      ∀ g d, g.encode = .ok d → d = c ∨ d.message = c.message → g = f := by
  have recovered {f : Filter Value} {c : Compiled} (run : f.encode = .ok c)
      (short : c.message.length < UInt64.size) :
      readBack c = some f ∧ readMessage c.message = some f := by
    have read : readBack c = some f :=
      readWithin_encodeAt run (Nat.lt_trans (Envelope.length_lt_encode c.envelope) short)
    refine ⟨read, ?_⟩
    rw [readMessage, Envelope.decode?, Compiled.message, Envelope.decodeIn_encode short]
    simp [compiled?_envelope, read]
  refine ⟨fun shallow fits => exists_encodeAt (by simpa using shallow) fits, fun c run short => ?_⟩
  refine ⟨(recovered run short).1, (recovered run short).2, ?_⟩
  intro g d run' same
  have message : d.message = c.message := same.elim (congrArg _) id
  have read := (recovered run' (message ▸ short)).2
  rw [message, (recovered run short).2] at read
  exact (Option.some.inj read).symm

theorem readBack_encode_nested :
    let f : Filter Value := .node .not
      [.node .and [.clause ⟨"a", .less, .int 1, true, some false⟩, .node .or [],
        .clause ⟨"b", .equal, .str "x", false, none⟩]]
    ∃ c, f.encode = .ok c ∧ readBack c = some f ∧ readMessage c.message = some f ∧
      ∀ g d, g.encode = .ok d → d = c ∨ d.message = c.message → g = f := by
  intro f
  obtain ⟨c, run⟩ := (readBack_encode f).1 (by decide) (by decide)
  have short : c.message.length < UInt64.size := by
    obtain rfl := Except.ok.inj (show .ok _ = Except.ok c from run)
    decide +kernel
  exact ⟨c, run, (readBack_encode f).2 c run short⟩

end Filter

end TableWire
