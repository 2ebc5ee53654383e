import TableWire.Filter.Binding
import TableWire.Except
import TableWire.Proofs.Filter.Pieces
/-!
The resolution of filters. It fails with the first of the errors that its nodes and clauses have, in
the order in which they are visited (`error?_resolveAt`).
-/

namespace TableWire

/-- The name is bound to a value that can be compared with. -/
def Bindings.Supplies (b : Bindings) (name : String) : Prop :=
  ∃ v, b.get? name = some v ∧ v ≠ .null ∧ v ≠ .autoIncrement

namespace Filter

/-- Why the operand of a clause is not supplied. -/
inductive Refused (b : Bindings) (c : Clause String) : CompileError → Prop
  | missing : b.get? c.operand = none → Refused b c (.missingParameter c.operand)
  | operand {v : Value} : b.get? c.operand = some v → v = .null ∨ v = .autoIncrement →
    Refused b c (.operand c.operand (.unsupported "filter operand"))

theorem isOperand_iff {v : Value} : isOperand v ↔ v ≠ .null ∧ v ≠ .autoIncrement := by
  cases v <;> simp [isOperand]

section Clause

variable {b : Bindings} {c : Clause String}

theorem resolveClause_eq_ok {d : Clause Value} : resolveClause b c = .ok d ↔
    ∃ v, b.get? c.operand = some v ∧ (v ≠ .null ∧ v ≠ .autoIncrement) ∧
      { c with operand := v } = d := by
  rw [resolveClause]
  cases b.get? c.operand with
  | none => simp
  | some v => by_cases h : isOperand v <;> simp [h, ← isOperand_iff]

theorem resolveClause_eq_error {e : CompileError} :
    resolveClause b c = .error e ↔ Refused b c e := by
  rw [resolveClause]
  constructor
  · intro failed
    split at failed
    · next unbound =>
      cases failed
      exact .missing unbound
    · next v bound =>
      split at failed
      · cases failed
      · next no_operand =>
        cases failed
        refine .operand bound ?_
        rw [isOperand_iff] at no_operand
        tauto
  · rintro (unbound | ⟨bound, rfl | rfl⟩)
    · rw [unbound]
    · rw [bound]
      rfl
    · rw [bound]
      rfl

theorem error?_resolveClause : (resolveClause b c).error? = none ↔ b.Supplies c.operand := by
  rw [Except.error?_eq_none]
  simp only [resolveClause_eq_ok, Bindings.Supplies]
  constructor
  · rintro ⟨_, v, bound, operand, _⟩
    exact ⟨v, bound, operand⟩
  · rintro ⟨v, bound, operand⟩
    exact ⟨_, v, bound, operand, rfl⟩

end Clause

mutual

/-- The errors in a filter that stands below `depth` connectives, a node before its parts. -/
def offences (b : Bindings) (depth : Nat) : Filter String → List CompileError
  | .clause c => (resolveClause b c).error?.toList
  | .node _ fs => (checkDepth (depth + 1)).error?.toList ++ offencesAll b (depth + 1) fs

def offencesAll (b : Bindings) (depth : Nat) : List (Filter String) → List CompileError
  | [] => []
  | f :: fs => offences b depth f ++ offencesAll b depth fs

end

variable {b : Bindings} {n : Nat} {f : Filter String}

theorem offencesAll_eq_flatMap (fs : List (Filter String)) :
    offencesAll b n fs = fs.flatMap (offences b n) := by
  induction fs with
  | nil => rfl
  | cons f fs ih => rw [offencesAll, ih, List.flatMap_cons]

mutual

/-- The values that are bound to them in place of all operands. -/
def substitute (b : Bindings) : Filter String → Filter Value
  | .clause c => .clause { c with operand := (b.get? c.operand).getD .null }
  | .node k fs => .node k (substituteAll b fs)

def substituteAll (b : Bindings) : List (Filter String) → List (Filter Value)
  | [] => []
  | f :: fs => substitute b f :: substituteAll b fs

end

theorem substituteAll_eq_map (fs : List (Filter String)) :
    substituteAll b fs = fs.map (substitute b) := by
  induction fs with
  | nil => rfl
  | cons f fs ih => rw [substituteAll, ih, List.map_cons]

theorem depth_substitute (f : Filter String) : (f.substitute b).depth = f.depth := by
  induction f with
  | clause c => rfl
  | node k fs ih =>
    rw [substitute, depth, depth, substituteAll_eq_map]
    congr 1
    induction fs with
    | nil => rfl
    | cons f fs ih' =>
      obtain ⟨first, others⟩ := List.forall_mem_cons.mp ih
      rw [List.map_cons, depthAll, depthAll, first, ih' others]

theorem clauses_substitute (f : Filter String) : (f.substitute b).clauses =
    f.clauses.map fun c => { c with operand := (b.get? c.operand).getD .null } := by
  induction f with
  | clause c => rfl
  | node k fs ih =>
    rw [substitute, clauses, clauses, substituteAll_eq_map, clausesAll_eq_flatMap,
      clausesAll_eq_flatMap, List.flatMap_map, List.map_flatMap]
    exact List.flatMap_congr ih

theorem checkDepth_eq_ok {u : Unit} : checkDepth n = .ok u ↔ n ≤ maxDepth := by
  by_cases h : n ≤ maxDepth <;> simp [checkDepth, h]

theorem resolveAllAt_eq_ok {fs : List (Filter String)} {gs : List (Filter Value)} :
    resolveAllAt b n fs = .ok gs ↔ List.Forall₂ (fun f g => resolveAt b n f = .ok g) fs gs := by
  induction fs generalizing gs with
  | nil =>
    rw [resolveAllAt, Except.pure_eq_ok, List.forall₂_nil_left_iff]
    exact eq_comm
  | cons f fs ih =>
    simp only [resolveAllAt, Except.bind_eq_ok, Except.pure_eq_ok, ih]
    constructor
    · rintro ⟨g, first, gs, others, rfl⟩
      exact .cons first others
    · intro parts
      cases parts with
      | cons first others => exact ⟨_, first, _, others, rfl⟩

theorem resolveAt_node_eq_ok {k : Connective} {fs : List (Filter String)} {g : Filter Value} :
    resolveAt b n (.node k fs) = .ok g ↔ n + 1 ≤ maxDepth ∧
      ∃ gs, List.Forall₂ (fun f g => resolveAt b (n + 1) f = .ok g) fs gs ∧ .node k gs = g := by
  simp only [resolveAt, Except.bind_eq_ok, Except.pure_eq_ok, checkDepth_eq_ok, resolveAllAt_eq_ok]
  constructor
  · rintro ⟨_, room, gs, parts, same⟩
    exact ⟨room, gs, parts, same⟩
  · rintro ⟨room, gs, parts, same⟩
    exact ⟨(), room, gs, parts, same⟩

/-- What has been resolved has the bound values in place of the operands, and is the same else. -/
theorem eq_substitute_of_resolveAt {g : Filter Value} (run : resolveAt b n f = .ok g) :
    g = f.substitute b := by
  induction f generalizing n g with
  | clause c =>
    obtain ⟨d, resolved, same⟩ := Except.bind_eq_ok.mp run
    obtain rfl := Except.pure_eq_ok.mp same
    obtain ⟨v, bound, _, rfl⟩ := resolveClause_eq_ok.mp resolved
    rw [substitute, bound, Option.getD_some]
  | node k fs ih =>
    obtain ⟨_, gs, parts, rfl⟩ := resolveAt_node_eq_ok.mp run
    have same := forall₂_imp_of_mem parts fun f hf g part => (ih f hf part).symm
    rw [← List.forall₂_map_left_iff, List.forall₂_eq_eq_eq] at same
    rw [substitute, substituteAll_eq_map, same]

/-- Resolution stops at the first error. -/
theorem error?_resolveAt (f : Filter String) :
    (resolveAt b n f).error? = (offences b n f).head? := by
  induction f generalizing n with
  | clause c => rw [resolveAt, offences, Except.error?_bind_pure, Option.head?_toList]
  | node k fs ih =>
    have parts : (resolveAllAt b (n + 1) fs).error? = (offencesAll b (n + 1) fs).head? := by
      induction fs with
      | nil => rfl
      | cons f fs ih' =>
        obtain ⟨first, others⟩ := List.forall_mem_cons.mp ih
        rw [resolveAllAt, offencesAll, List.head?_append, ← first]
        refine Except.error?_bind fun g => ?_
        rw [Except.error?_bind_pure, ih' others]
    rw [resolveAt, offences, List.head?_append, Option.head?_toList, ← parts]
    exact Except.error?_bind fun _ => Except.error?_bind_pure

theorem checkDepth_eq_error {e : CompileError} :
    checkDepth n = .error e ↔ maxDepth < n ∧ e = .filter .tooDeep := by
  by_cases h : n ≤ maxDepth <;> simp [checkDepth, h, Nat.lt_of_not_le, eq_comm]

theorem error?_checkDepth_of_le (room : n ≤ maxDepth) : (checkDepth n).error? = none :=
  Except.error?_eq_none.mpr ⟨(), checkDepth_eq_ok.mpr room⟩

/-- Where paths are short enough, only clauses are at fault. -/
theorem offences_of_shallow (shallow : n + f.depth ≤ maxDepth) :
    offences b n f = f.clauses.filterMap fun c => (resolveClause b c).error? := by
  induction f generalizing n with
  | clause c =>
    simp only [offences, clauses, List.filterMap_cons, List.filterMap_nil]
    cases (resolveClause b c).error? <;> rfl
  | node k fs ih =>
    rw [depth] at shallow
    rw [offences, error?_checkDepth_of_le (by omega), Option.toList_none, List.nil_append,
      offencesAll_eq_flatMap, clauses, clausesAll_eq_flatMap, List.filterMap_flatMap]
    refine List.flatMap_congr fun f hf => ih f hf ?_
    have := depthAll_le_iff.mp (Nat.le_refl _) f hf
    omega

/-- Where all operands are supplied, only nodes are at fault. -/
theorem offences_of_supplied (supplied : ∀ c ∈ f.clauses, b.Supplies c.operand) :
    ∀ e ∈ offences b n f, e = .filter .tooDeep := by
  induction f generalizing n with
  | clause c =>
    have none := error?_resolveClause.mpr (supplied c (by simp [clauses]))
    simp [offences, none]
  | node k fs ih =>
    rw [offences, offencesAll_eq_flatMap]
    refine List.forall_mem_append.mpr ⟨fun e he => ?_, fun e he => ?_⟩
    · exact (checkDepth_eq_error.mp (Except.error?_eq_some.mp (Option.mem_toList.mp he))).2
    · obtain ⟨f, hf, he⟩ := List.mem_flatMap.mp he
      exact ih f hf (forall_clausesAll.mp supplied f hf) e he

/-- A path that is too long is at fault, whatever the operands are. -/
theorem offences_ne_nil_of_deep (room : n ≤ maxDepth) (deep : maxDepth < n + f.depth) :
    offences b n f ≠ [] := by
  induction f generalizing n with
  | clause c =>
    rw [depth] at deep
    omega
  | node k fs ih =>
    rw [depth] at deep
    rw [offences, offencesAll_eq_flatMap]
    by_cases here : n + 1 ≤ maxDepth
    · have below : ¬ ∀ f ∈ fs, f.depth ≤ maxDepth - (n + 1) := by
        rw [← depthAll_le_iff]
        omega
      simp only [not_forall, Nat.not_le] at below
      obtain ⟨f, hf, deeper⟩ := below
      have part := ih f hf here (by omega)
      simp only [ne_eq, List.append_eq_nil_iff, List.flatMap_eq_nil_iff, not_and, not_forall]
      exact fun _ => ⟨f, hf, part⟩
    · have failed := Except.error?_eq_some.mpr
        (checkDepth_eq_error.mpr ⟨Nat.lt_of_not_le here, rfl⟩)
      simp [failed]

theorem resolve_eq_error_iff {e : CompileError} :
    f.resolve b = .error e ↔ (offences b 0 f).head? = some e := by
  rw [resolve, ← Except.error?_eq_some, error?_resolveAt]

/-- With all operands supplied, a filter is resolved unless it is too deep. -/
theorem resolve_tooDeep_iff (supplied : ∀ c ∈ f.clauses, b.Supplies c.operand) :
    f.resolve b = .error (.filter .tooDeep) ↔ maxDepth < f.depth := by
  rw [resolve_eq_error_iff]
  constructor
  · intro first
    by_contra shallow
    rw [offences_of_shallow (by omega)] at first
    obtain ⟨c, hc, refused⟩ := List.mem_filterMap.mp (List.mem_of_head? first)
    cases (error?_resolveClause.mpr (supplied c hc)).symm.trans refused
  · intro deep
    -- some node is met below too many others, and clauses are not at fault
    have some_offence := offences_ne_nil_of_deep (b := b) (Nat.zero_le maxDepth)
      (by rwa [Nat.zero_add])
    obtain ⟨e, first⟩ := Option.ne_none_iff_exists'.mp (List.head?_eq_none_iff.not.mpr some_offence)
    rw [first, offences_of_supplied supplied e (List.mem_of_head? first)]

/-- Why a piece cannot be resolved. Connectives can. -/
def offence? (b : Bindings) (p : Piece String) : Option CompileError :=
  p.clause?.bind fun c => (resolveClause b c).error?

theorem offence?_eq_none {p : Piece String} :
    offence? b p = none ↔ ∀ c, p = .clause c → b.Supplies c.operand := by
  cases p with
  | clause c => simp [offence?, Piece.clause?, error?_resolveClause]
  | connective k => simp [offence?, Piece.clause?]

theorem offence?_eq_some {p : Piece String} {e : CompileError} :
    offence? b p = some e ↔ ∃ c, p = .clause c ∧ Refused b c e := by
  cases p with
  | clause c => simp [offence?, Piece.clause?, Except.error?_eq_some, resolveClause_eq_error]
  | connective k => simp [offence?, Piece.clause?]

/-- A shallow filter is resolved piece by piece, from left to right. -/
theorem error?_resolve_of_shallow (shallow : f.depth ≤ maxDepth) :
    (f.resolve b).error? = f.pieces.findSome? (offence? b) := by
  rw [resolve, error?_resolveAt, offences_of_shallow (by omega), clauses_eq_filterMap,
    List.filterMap_filterMap, List.head?_filterMap]
  rfl

theorem forall_pieces_iff {p : Clause String → Prop} :
    (∀ c, .clause c ∈ f.pieces → p c) ↔ ∀ c ∈ f.clauses, p c := by
  rw [clauses_eq_filterMap]
  constructor
  · intro h c hc
    obtain ⟨q, mem, same⟩ := List.mem_filterMap.mp hc
    cases q with
    | clause d => exact Option.some.inj same ▸ h d mem
    | connective k => cases same
  · exact fun h c hc => h c (List.mem_filterMap.mpr ⟨_, hc, rfl⟩)

end Filter

end TableWire
