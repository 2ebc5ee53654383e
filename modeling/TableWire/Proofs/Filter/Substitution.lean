import TableWire.Proofs.Filter.Recovery
/-!
Resolution as substitution. Places in a filter are told by paths, which list the indices of the
parts on the way down; the lexicographic order of paths visits a node before its parts, and the
parts from left to right. A filter is resolved when it offends at no place, and then only operands
are replaced; otherwise the offence at the first place is reported.
-/

namespace TableWire.Filter

section Places

variable {ω : Type}

/-- What stands at the end of a path. All filters on the way there are nodes. -/
def at? : Filter ω → List Nat → Option (Filter ω)
  | f, [] => some f
  | .clause _, _ :: _ => none
  | .node _ fs, i :: p => fs[i]?.bind (·.at? p)

@[simp] theorem at?_nil (f : Filter ω) : f.at? [] = some f := by
  cases f <;> rfl

@[simp] theorem at?_node_cons (k : Connective) (fs : List (Filter ω)) (i : Nat) (p : List Nat) :
    (node k fs).at? (i :: p) = fs[i]?.bind (·.at? p) := rfl

end Places

variable {b : Bindings} {n : Nat} {f : Filter String} {p : List Nat} {e : CompileError}

/-- What is wrong at a place of a filter that stands below `n` connectives: a clause whose operand
is not supplied, or a node that has, itself included, too many nodes on its path. -/
inductive OffendsAt (b : Bindings) (n : Nat) (f : Filter String) (p : List Nat) :
    CompileError → Prop
  | clause {c : Clause String} {e : CompileError} :
    f.at? p = some (.clause c) → Refused b c e → OffendsAt b n f p e
  | node {k : Connective} {fs : List (Filter String)} :
    f.at? p = some (.node k fs) → maxDepth < n + (p.length + 1) →
      OffendsAt b n f p (.filter .tooDeep)

/-- What is wrong at the first place where something is. -/
structure FirstOffence (b : Bindings) (n : Nat) (f : Filter String) (p : List Nat)
    (e : CompileError) : Prop where
  offends : OffendsAt b n f p e
  first : ∀ q e', OffendsAt b n f q e' → ¬ q < p

theorem offendsAt_clause {c : Clause String} :
    OffendsAt b n (.clause c) p e ↔ p = [] ∧ Refused b c e := by
  constructor
  · intro offence
    cases p with
    | nil =>
      cases offence with
      | clause at_end refused =>
        cases at_end
        exact ⟨rfl, refused⟩
      | node at_end _ => cases at_end
    | cons i p => cases offence with | clause at_end _ | node at_end _ => cases at_end
  · rintro ⟨rfl, refused⟩
    exact .clause rfl refused

section Node

variable {k : Connective} {fs : List (Filter String)}

theorem offendsAt_node_nil :
    OffendsAt b n (.node k fs) [] e ↔ maxDepth < n + 1 ∧ e = .filter .tooDeep := by
  constructor
  · intro offence
    cases offence with
    | clause at_end _ => cases at_end
    | node _ deep => exact ⟨deep, rfl⟩
  · rintro ⟨deep, rfl⟩
    exact .node rfl deep

theorem offendsAt_node_cons {i : Nat} :
    OffendsAt b n (.node k fs) (i :: p) e ↔ ∃ f, fs[i]? = some f ∧ OffendsAt b (n + 1) f p e := by
  have level : n + ((i :: p).length + 1) = n + 1 + (p.length + 1) := by
    rw [List.length_cons]
    omega
  constructor
  · intro offence
    cases offence with
    | clause at_end refused =>
      obtain ⟨f, part, at_end⟩ := Option.bind_eq_some_iff.mp at_end
      exact ⟨f, part, .clause at_end refused⟩
    | node at_end deep =>
      obtain ⟨f, part, at_end⟩ := Option.bind_eq_some_iff.mp at_end
      exact ⟨f, part, .node at_end (level ▸ deep)⟩
  · rintro ⟨f, part, offence⟩
    cases offence with
    | clause at_end refused =>
      exact .clause (Option.bind_eq_some_iff.mpr ⟨f, part, at_end⟩) refused
    | node at_end deep =>
      exact .node (Option.bind_eq_some_iff.mpr ⟨f, part, at_end⟩) (level ▸ deep)

end Node

/-- No two things are wrong at one place. -/
theorem OffendsAt.unique {e' : CompileError} (h : OffendsAt b n f p e)
    (h' : OffendsAt b n f p e') : e = e' := by
  cases h with
  | clause at_end refused =>
    cases h' with
    | clause at_end' refused' =>
      cases at_end.symm.trans at_end'
      exact Except.error.inj
        ((resolveClause_eq_error.mpr refused).symm.trans (resolveClause_eq_error.mpr refused'))
    | node at_end' _ => cases at_end.symm.trans at_end'
  | node at_end _ =>
    cases h' with
    | clause at_end' _ => cases at_end.symm.trans at_end'
    | node _ _ => rfl

theorem FirstOffence.unique {q : List Nat} {e' : CompileError} (h : FirstOffence b n f p e)
    (h' : FirstOffence b n f q e') : p = q ∧ e = e' := by
  have same : p = q := List.le_antisymm (List.not_lt.mp (h.first q e' h'.offends))
    (List.not_lt.mp (h'.first p e h.offends))
  subst same
  exact ⟨rfl, h.offends.unique h'.offends⟩

/-- Parts fail to be resolved where one fails and those before it do not. -/
theorem exists_of_resolveAllAt_eq_error {fs : List (Filter String)}
    (failed : resolveAllAt b n fs = .error e) : ∃ (i : Nat) (f : Filter String),
      fs[i]? = some f ∧ resolveAt b n f = .error e ∧
        ∀ j < i, ∀ f', fs[j]? = some f' → ∃ g, resolveAt b n f' = .ok g := by
  induction fs with
  | nil => cases failed
  | cons f fs ih =>
    rw [resolveAllAt] at failed
    obtain one | ⟨g, one, failed⟩ := Except.bind_eq_error.mp failed
    · exact ⟨0, f, rfl, one, fun j below => absurd below (Nat.not_lt_zero j)⟩
    · obtain more | ⟨_, _, none⟩ := Except.bind_eq_error.mp failed
      · obtain ⟨i, f', part, offence, before⟩ := ih more
        refine ⟨i + 1, f', part, offence, fun j below f'' part => ?_⟩
        cases j with
        | zero =>
          cases part
          exact ⟨g, one⟩
        | succ j => exact before j (Nat.lt_of_succ_lt_succ below) f'' part
      · cases none

theorem not_offendsAt_of_resolveAt {g : Filter Value} (run : resolveAt b n f = .ok g) :
    ¬ OffendsAt b n f p e := by
  intro offence
  induction f generalizing n g p with
  | clause c =>
    obtain ⟨_, resolved, _⟩ := Except.bind_eq_ok.mp run
    cases resolved.symm.trans (resolveClause_eq_error.mpr (offendsAt_clause.mp offence).2)
  | node k fs ih =>
    obtain ⟨room, gs, parts, _⟩ := resolveAt_node_eq_ok.mp run
    cases p with
    | nil => exact Nat.not_lt_of_le room (offendsAt_node_nil.mp offence).1
    | cons i p =>
      obtain ⟨f, part, offence⟩ := offendsAt_node_cons.mp offence
      obtain ⟨bound, rfl⟩ := List.getElem?_eq_some_iff.mp part
      have resolved := parts.get bound (parts.length_eq ▸ bound)
      exact ih _ (List.getElem_mem bound) resolved offence

/-- The error of a filter that is not resolved is what is wrong at the first place. -/
theorem exists_firstOffence (failed : resolveAt b n f = .error e) :
    ∃ p, FirstOffence b n f p e := by
  induction f generalizing n with
  | clause c =>
    obtain one | ⟨_, _, none⟩ := Except.bind_eq_error.mp failed
    · refine ⟨[], offendsAt_clause.mpr ⟨rfl, resolveClause_eq_error.mp one⟩, fun q _ _ => ?_⟩
      exact List.not_lt_nil q
    · cases none
  | node k fs ih =>
    rw [resolveAt] at failed
    obtain deep | ⟨_, room, failed⟩ := Except.bind_eq_error.mp failed
    · refine ⟨[], offendsAt_node_nil.mpr (checkDepth_eq_error.mp deep), fun q _ _ => ?_⟩
      exact List.not_lt_nil q
    · obtain part | ⟨_, _, none⟩ := Except.bind_eq_error.mp failed
      · obtain ⟨i, f, here, one, before⟩ := exists_of_resolveAllAt_eq_error part
        obtain ⟨p, offends, first⟩ := ih f (List.mem_of_getElem? here) one
        refine ⟨i :: p, offendsAt_node_cons.mpr ⟨f, here, offends⟩, fun q e' offence less => ?_⟩
        -- an earlier offence is that of the node, of an earlier part, or earlier in this part
        cases q with
        | nil =>
          exact Nat.not_lt_of_le (checkDepth_eq_ok.mp room) (offendsAt_node_nil.mp offence).1
        | cons j q =>
          obtain ⟨f', there, offence⟩ := offendsAt_node_cons.mp offence
          obtain earlier | ⟨rfl, deeper⟩ := List.cons_lt_cons_iff.mp less
          · obtain ⟨g, resolved⟩ := before j earlier f' there
            exact not_offendsAt_of_resolveAt resolved offence
          · cases here.symm.trans there
            exact first q e' offence deeper
      · cases none

theorem resolveAt_eq_error_iff :
    resolveAt b n f = .error e ↔ ∃ p, FirstOffence b n f p e := by
  refine ⟨exists_firstOffence, fun ⟨p, first⟩ => ?_⟩
  cases run : resolveAt b n f with
  | ok g => exact absurd first.offends (not_offendsAt_of_resolveAt run)
  | error e' =>
    obtain ⟨q, first'⟩ := exists_firstOffence run
    rw [(first.unique first').2]

theorem exists_resolveAt_iff :
    (∃ g, resolveAt b n f = .ok g) ↔ ∀ p e, ¬ OffendsAt b n f p e := by
  refine ⟨fun ⟨g, run⟩ p e => not_offendsAt_of_resolveAt run, fun clean => ?_⟩
  cases run : resolveAt b n f with
  | ok g => exact ⟨g, rfl⟩
  | error e =>
    obtain ⟨p, first⟩ := exists_firstOffence run
    exact absurd first.offends (clean p e)

/-- The same node, or the same clause with the value that is bound to its parameter. -/
inductive Substituted (b : Bindings) : Filter String → Filter Value → Prop
  | clause {c : Clause String} {v : Value} :
    b.get? c.operand = some v → Substituted b (.clause c) (.clause { c with operand := v })
  | node {k : Connective} {fs : List (Filter String)} {gs : List (Filter Value)} :
    fs.length = gs.length → Substituted b (.node k fs) (.node k gs)

/-- Resolving replaces the operands, and keeps all else in its place. -/
theorem substituted_of_resolveAt {g : Filter Value} (run : resolveAt b n f = .ok g)
    (p : List Nat) : Option.Rel (Substituted b) (f.at? p) (g.at? p) := by
  induction f generalizing n g p with
  | clause c =>
    obtain ⟨d, resolved, same⟩ := Except.bind_eq_ok.mp run
    obtain rfl := Except.pure_eq_ok.mp same
    obtain ⟨v, bound, _, rfl⟩ := resolveClause_eq_ok.mp resolved
    cases p with
    | nil => exact .some (.clause bound)
    | cons i p => exact .none
  | node k fs ih =>
    obtain ⟨_, gs, parts, rfl⟩ := resolveAt_node_eq_ok.mp run
    cases p with
    | nil => exact .some (.node parts.length_eq)
    | cons i p =>
      by_cases bound : i < fs.length
      · have bound' := parts.length_eq ▸ bound
        rw [at?_node_cons, at?_node_cons, List.getElem?_eq_getElem bound,
          List.getElem?_eq_getElem bound']
        exact ih _ (List.getElem_mem bound) (parts.get bound bound') p
      · have bound' := parts.length_eq ▸ bound
        rw [at?_node_cons, at?_node_cons, List.getElem?_eq_none (Nat.le_of_not_lt bound),
          List.getElem?_eq_none (Nat.le_of_not_lt bound')]
        exact .none

/-- At most one filter has the bound values at all places. -/
theorem eq_substitute_of_substituted {g : Filter Value}
    (same : ∀ p, Option.Rel (Substituted b) (f.at? p) (g.at? p)) : g = f.substitute b := by
  induction f generalizing g with
  | clause c =>
    have root := same []
    rw [at?_nil, at?_nil] at root
    cases root with
    | some root =>
      cases root with
      | clause bound => rw [substitute, bound, Option.getD_some]
  | node k fs ih =>
    have root := same []
    rw [at?_nil, at?_nil] at root
    cases root with
    | some root =>
      cases root with
      | @node _ _ gs length =>
        rw [substitute, substituteAll_eq_map]
        congr 1
        refine List.ext_getElem (by rw [List.length_map, length]) fun i bound _ => ?_
        have here : i < fs.length := length ▸ bound
        rw [List.getElem_map]
        refine ih fs[i] (List.getElem_mem here) fun p => ?_
        have below := same (i :: p)
        rwa [at?_node_cons, at?_node_cons, List.getElem?_eq_getElem here,
          List.getElem?_eq_getElem bound] at below

/-- Only the parameters of its clauses matter to a filter. -/
theorem resolveAt_congr {b' : Bindings}
    (same : ∀ c ∈ f.clauses, b'.get? c.operand = b.get? c.operand) :
    resolveAt b' n f = resolveAt b n f := by
  induction f generalizing n with
  | clause c => rw [resolveAt, resolveAt, resolveClause, resolveClause, same c (by simp [clauses])]
  | node k fs ih =>
    have parts : resolveAllAt b' (n + 1) fs = resolveAllAt b (n + 1) fs := by
      rw [clauses, forall_clausesAll] at same
      induction fs with
      | nil => rfl
      | cons f fs ih' =>
        obtain ⟨first, others⟩ := List.forall_mem_cons.mp ih
        obtain ⟨same_first, same_others⟩ := List.forall_mem_cons.mp same
        rw [resolveAllAt, resolveAllAt, first same_first, ih' others same_others]
    rw [resolveAt, resolveAt, parts]

theorem depth_le_of_resolveAt {g : Filter Value} (room : n ≤ maxDepth)
    (run : resolveAt b n f = .ok g) : n + f.depth ≤ maxDepth := by
  by_contra deep
  refine offences_ne_nil_of_deep (b := b) room (Nat.lt_of_not_le deep) ?_
  rw [← List.head?_eq_none_iff, ← error?_resolveAt, Except.error?_eq_none]
  exact ⟨g, run⟩

/-- What has been resolved is not too deep to be compiled. -/
theorem exists_encode_of_resolve {g : Filter Value} (run : f.resolve b = .ok g)
    (fits : ∀ c ∈ g.clauses, c.operand.Fits) : ∃ d, g.encode = .ok d := by
  have shallow := depth_le_of_resolveAt (Nat.zero_le maxDepth) run
  obtain rfl := eq_substitute_of_resolveAt run
  exact exists_encodeAt (by rwa [depth_substitute]) fits

/-- A filter is resolved exactly when nothing is wrong at any of its places, and then it is the
filter with the bound values in place of the parameters. Otherwise the error is what is wrong at the
first place. Only the bindings of its parameters count, and what has been resolved compiles. -/
theorem resolve_substitutes_or_blames (b : Bindings) (f : Filter String) :
    ((∃ g, f.resolve b = .ok g) ↔ ∀ p e, ¬ OffendsAt b 0 f p e) ∧
    (∀ g, f.resolve b = .ok g ↔ (∀ p e, ¬ OffendsAt b 0 f p e) ∧
      ∀ p, Option.Rel (Substituted b) (f.at? p) (g.at? p)) ∧
    (∀ e, f.resolve b = .error e ↔ ∃ p, FirstOffence b 0 f p e) ∧
    (∀ b' : Bindings, (∀ c ∈ f.clauses, b'.get? c.operand = b.get? c.operand) →
      f.resolve b' = f.resolve b) ∧
    ∀ g, f.resolve b = .ok g → (∀ c ∈ g.clauses, c.operand.Fits) → ∃ d, g.encode = .ok d := by
  refine ⟨exists_resolveAt_iff, fun g => ⟨fun run => ?_, fun ⟨clean, substituted⟩ => ?_⟩,
    fun e => resolveAt_eq_error_iff, fun b' same => resolveAt_congr same,
    fun g run fits => exists_encode_of_resolve run fits⟩
  · exact ⟨exists_resolveAt_iff.mp ⟨g, run⟩, substituted_of_resolveAt run⟩
  · obtain ⟨g', run⟩ := exists_resolveAt_iff.mpr clean
    rwa [eq_substitute_of_substituted substituted, ← eq_substitute_of_resolveAt run]

theorem resolve_substitutes_or_blames_second_clause :
    let f : Filter String := .node .and [.clause ⟨"a", .equal, "x", true, none⟩,
      .node .not [.clause ⟨"b", .less, "y", false, some true⟩],
      .clause ⟨"c", .greater, "z", true, none⟩]
    let few : Bindings := .ofList [("x", .int 1), ("z", .null)]
    let all : Bindings := .ofList [("x", .int 1), ("y", .str "v"), ("z", .infMin)]
    (∃ p, FirstOffence few 0 f p (.missingParameter "y")) ∧
      (∀ p, Option.Rel (Substituted all) (f.at? p) ((f.substitute all).at? p)) ∧
      f.resolve (all.insert "w" .null) = f.resolve all ∧
      ∃ d, (f.substitute all).encode = .ok d := by
  intro f few all
  obtain ⟨_, _, blamed, _⟩ := resolve_substitutes_or_blames few f
  obtain ⟨_, substituted, _, parameters, compiles⟩ := resolve_substitutes_or_blames all f
  have run : f.resolve all = .ok (f.substitute all) := by decide +kernel
  refine ⟨(blamed _).mp (by decide +kernel), ((substituted _).mp run).2, parameters _ ?_,
    compiles _ run ?_⟩
  · decide +kernel
  · decide +kernel

end TableWire.Filter
