import TableWire.Proofs.Filter.Meaning
import TableWire.Proofs.Filter.Printing
import TableWire.Proofs.Filter.Unambiguous
/-!
What the text of a filter with many parts is read as. Where no connective stands above one that
binds less tight, the text says all but the grouping: it is read as the filter regrouped from the
left, which means the same.
-/

namespace TableWire.Filter

open Token

/-- The clauses are plain, the nodes have as many parts as their connectives take, and `below` tells
which parts they may have. -/
inductive Built (below : Connective → Filter String → Prop) : Filter String → Prop
  | clause {c : Clause String} : c.Plain → Built below (.clause c)
  | node {k : Connective} {fs : List (Filter String)} : k.Admits fs.length →
    (∀ f ∈ fs, below k f) → (∀ f ∈ fs, Built below f) → Built below (.node k fs)

/-- The filter binds at least as tight as the connective above it. -/
def Under : Connective → Filter String → Prop
  | .not, f => f.IsNegation
  | .and, f => f.root? ≠ some .or
  | .or, _ => True

/-- The filter stays apart from the connective above it, of which it is no group. -/
def Apart : Connective → Filter String → Prop
  | .not, f => f.IsNegation
  | .and, f => f.IsNegation
  | .or, f => f.root? ≠ some .or

/-- No connective stands above one that binds less tight. AND and OR may have many parts. -/
def Layered (f : Filter String) : Prop := f.Built Under

theorem admits_iff {k : Connective} (ne : k ≠ .not) {n : Nat} : k.Admits n ↔ 2 ≤ n := by
  cases k with
  | not => exact absurd rfl ne
  | and => rfl
  | or => rfl

/-- A built filter is a clause, the negation of a built filter, or a group of two and more. -/
@[elab_as_elim]
theorem Built.induct {below : Connective → Filter String → Prop}
    {motive : (f : Filter String) → f.Built below → Prop}
    (clause : ∀ c (plain : Clause.Plain c), motive (.clause c) (.clause plain))
    (not : ∀ f (h : f.Built below) (built : f.not.Built below), below .not f → motive f h →
      motive f.not built)
    (group : ∀ k fs (parts : ∀ f ∈ fs, f.Built below) (built : (Filter.node k fs).Built below),
      k ≠ .not → 2 ≤ fs.length → (∀ f ∈ fs, below k f) → (∀ f hf, motive f (parts f hf)) →
      motive (.node k fs) built)
    {f : Filter String} (h : f.Built below) : motive f h := by
  induction h with
  | @clause c plain => exact clause c plain
  | @node k fs admits under parts ih =>
    by_cases same : k = .not
    · subst same
      obtain ⟨f, rfl⟩ := List.length_eq_one_iff.mp admits
      exact not f _ _ (under f (by simp)) (ih f (by simp))
    · exact group k fs parts _ same ((admits_iff same).mp admits) under ih

section Text

variable {k : Connective} {f : Filter String} {fs : List (Filter String)}

theorem texts_eq_map (fs : List (Filter String)) : texts fs = fs.map text := by
  induction fs with
  | nil => rfl
  | cons f fs ih => rw [texts, ih, List.map_cons]

theorem text_node (ne : k ≠ .not) (fs : List (Filter String)) :
    (node k fs).text = (" " ++ k.text ++ " ").intercalate (fs.map text) := by
  rw [text, texts_eq_map]
  exact ne

theorem spelling_node (ne : k ≠ .not) (fs : List (Filter String)) :
    (node k fs).spelling = [.keyword k].intercalate (fs.map spelling) := by
  rw [spelling, pieces_node ne]
  induction fs with
  | nil => rfl
  | cons f fs ih =>
    cases fs with
    | nil => simp [spelling]
    | cons g fs => simpa [spelling, Piece.tokens] using ih

/-- A connective between two texts stands between their tokens. -/
theorem splits_intercalate (h : ∀ g ∈ f :: fs, Splits g.text.toList g.spelling) :
    Splits ((" " ++ k.text ++ " ").intercalate ((f :: fs).map text)).toList
      ([.keyword k].intercalate ((f :: fs).map spelling)) := by
  obtain ⟨first, others⟩ := List.forall_mem_cons.mp h
  induction fs generalizing f with
  | nil => simpa using first
  | cons g fs ih =>
    have rest := ih others (List.forall_mem_cons.mp others).1 (List.forall_mem_cons.mp others).2
    simpa using first.append_blank ((splits_keyword k).append_blank rest)

/-- The text of a filter is spelled with its pieces, however they are grouped. -/
theorem Built.splits {below : Connective → Filter String → Prop} (h : f.Built below) :
    Splits f.text.toList f.spelling := by
  induction h using Built.induct with
  | clause c plain =>
    rw [spelling_clause]
    exact plain.splits_text
  | not f _ _ _ ih =>
    rw [spelling_not]
    simpa [Filter.not, text, texts, Connective.text] using (splits_keyword .not).append_blank ih
  | group k fs _ _ ne many _ ih =>
    rw [text_node ne, spelling_node ne]
    obtain ⟨f, gs, rfl⟩ := List.exists_cons_of_length_pos (Nat.zero_lt_of_lt many)
    exact splits_intercalate ih

end Text

section Flatten

variable {k : Connective} {f g : Filter String} {fs : List (Filter String)}

theorem Under.of_root?_eq (h : Under k f) (same : g.root? = f.root?) : Under k g := by
  cases k with
  | not => simpa [Under, IsNegation, same] using h
  | and => simpa [Under, same] using h
  | or => trivial

theorem Apart.of_root?_eq (h : Apart k f) (same : g.root? = f.root?) : Apart k g := by
  cases k with
  | not => simpa [Apart, IsNegation, same] using h
  | and => simpa [Apart, IsNegation, same] using h
  | or => simpa [Apart, same] using h

theorem Apart.under (h : Apart k f) : Under k f := by
  cases k with
  | not => exact h
  | and => exact IsNegation.root?_ne h
  | or => trivial

/-- A connective joins onto a group of its own. -/
theorem under_self (ne : k ≠ .not) (fs : List (Filter String)) : Under k (node k fs) := by
  cases k with
  | not => exact absurd rfl ne
  | and => simp [Under, root?]
  | or => trivial

theorem Built.operands_ne_nil (h : f.Built Apart) : f.operands k ≠ [] := by
  cases h with
  | clause => simp [operands]
  | @node l fs admits =>
    rw [operands]
    split
    · rintro rfl
      cases l <;> simp [Connective.Admits] at admits
    · simp

/-- What a part offers to the node above it stays apart from the connective. -/
theorem Built.operands (ne : k ≠ .not) (h : f.Built Apart) (under : Under k f)
    (mem : g ∈ f.operands k) : Apart k g ∧ g.Built Apart := by
  cases h with
  | clause plain =>
    obtain rfl := List.mem_singleton.mp mem
    refine ⟨?_, .clause plain⟩
    cases k <;> simp [Apart, IsNegation, root?]
  | @node l fs admits apart parts =>
    by_cases same : l = k
    · subst same
      rw [Filter.operands, if_pos rfl] at mem
      exact ⟨apart g mem, parts g mem⟩
    · rw [Filter.operands, if_neg same] at mem
      obtain rfl := List.mem_singleton.mp mem
      refine ⟨?_, .node admits apart parts⟩
      cases k <;> cases l <;> simp_all [Apart, Under, IsNegation, root?]

theorem length_le_flatMap {parts : Filter String → List (Filter String)}
    (h : ∀ f ∈ fs, parts f ≠ []) : fs.length ≤ (fs.flatMap parts).length := by
  induction fs with
  | nil => exact Nat.le_refl 0
  | cons f fs ih =>
    obtain ⟨first, others⟩ := List.forall_mem_cons.mp h
    have := List.length_pos_iff.mpr first
    have := ih others
    simp only [List.length_cons, List.flatMap_cons, List.length_append]
    omega

theorem Layered.flatten (h : f.Layered) : f.flatten.Built Apart ∧ f.flatten.root? = f.root? := by
  induction h using Built.induct with
  | clause c plain => exact ⟨.clause plain, rfl⟩
  | not f _ _ under ih =>
    have apart : Apart .not f.flatten := Apart.of_root?_eq (k := .not) under ih.2
    rw [Filter.not, flatten_not]
    exact ⟨.node rfl (by simpa using apart) (by simpa using ih.1), rfl⟩
  | group k fs _ _ ne many under ih =>
    have parts : ∀ g ∈ fs.flatMap fun f => f.flatten.operands k, Apart k g ∧ g.Built Apart := by
      intro g hg
      obtain ⟨f, hf, mem⟩ := List.mem_flatMap.mp hg
      obtain ⟨built, root⟩ := ih f hf
      exact built.operands ne (Under.of_root?_eq (under f hf) root) mem
    have longer : fs.length ≤ (fs.flatMap fun f => f.flatten.operands k).length :=
      length_le_flatMap fun f hf => (ih f hf).1.operands_ne_nil
    rw [flatten_node ne]
    refine ⟨.node ?_ (fun g hg => (parts g hg).1) fun g hg => (parts g hg).2, rfl⟩
    exact (admits_iff ne).mpr (Nat.le_trans many longer)

end Flatten

section FoldLeft

variable {k : Connective} {f g : Filter String} {fs : List (Filter String)}

theorem groups_of_under (ne : k ≠ .not) (under : Under k f) (apart : Apart k g) :
    Groups k [f, g] := by
  cases k with
  | not => exact absurd rfl ne
  | and => exact ⟨under, apart⟩
  | or => exact apart

theorem expressible_foldl (ne : k ≠ .not) (hf : f.Expressible) (under : Under k f)
    (others : ∀ g ∈ fs, g.Expressible ∧ Apart k g) :
    (fs.foldl (fun f g => node k [f, g]) f).Expressible := by
  induction fs generalizing f with
  | nil => exact hf
  | cons g fs ih =>
    obtain ⟨⟨hg, apart⟩, others⟩ := List.forall_mem_cons.mp others
    refine ih (.node (groups_of_under ne under apart) ?_) (under_self ne _) others
    simp [hf, hg]

theorem root?_foldl (k : Connective) (gs fs : List (Filter String)) :
    (fs.foldl (fun f g => node k [f, g]) (node k gs)).root? = some k := by
  induction fs generalizing gs with
  | nil => rfl
  | cons f fs ih => exact ih _

theorem Built.foldLeft (h : f.Built Apart) :
    f.foldLeft.Expressible ∧ f.foldLeft.root? = f.root? := by
  induction h using Built.induct with
  | clause c plain => exact ⟨.clause plain, rfl⟩
  | not f _ _ apart ih =>
    have negation : Apart .not f.foldLeft := apart.of_root?_eq ih.2
    rw [Filter.not, foldLeft_not]
    exact ⟨.node negation (by simpa using ih.1), rfl⟩
  | group k fs _ _ ne many apart ih =>
    have parts : ∀ x ∈ fs, x.foldLeft.Expressible ∧ Apart k x.foldLeft := fun x hx =>
      ⟨(ih x hx).1, (apart x hx).of_root?_eq (ih x hx).2⟩
    obtain ⟨f, fs, rfl⟩ := List.exists_cons_of_length_pos (Nat.zero_lt_of_lt many)
    obtain ⟨g, fs, rfl⟩ := List.exists_cons_of_length_pos (Nat.lt_of_succ_lt_succ many)
    obtain ⟨⟨first, under⟩, others⟩ := List.forall_mem_cons.mp parts
    rw [foldLeft_node ne]
    refine ⟨expressible_foldl ne first under.under ?_, root?_foldl k _ _⟩
    exact List.forall_mem_map.mpr others

end FoldLeft

section Pieces

variable {α ι : Type} {sep : List α}

theorem intercalate_append {xss yss : List (List α)} (hx : xss ≠ []) (hy : yss ≠ []) :
    sep.intercalate (xss ++ yss) = sep.intercalate [sep.intercalate xss, sep.intercalate yss] := by
  induction xss with
  | nil => exact absurd rfl hx
  | cons xs xss ih =>
    cases xss with
    | nil => simp [List.intercalate_cons_of_ne_nil hy]
    | cons zs xss => simpa using ih (by simp)

/-- Lists between which `sep` stands may be drawn together. -/
theorem intercalate_flatMap {is : List ι} {parts : ι → List (List α)} (h : ∀ i ∈ is, parts i ≠ []) :
    sep.intercalate (is.flatMap parts) = sep.intercalate (is.map (sep.intercalate ∘ parts)) := by
  induction is with
  | nil => rfl
  | cons i is ih =>
    obtain ⟨first, others⟩ := List.forall_mem_cons.mp h
    cases is with
    | nil => simp
    | cons j is =>
      have rest : (j :: is).flatMap parts ≠ [] := by simp [others j]
      rw [List.flatMap_cons, intercalate_append first rest, ih others]
      simp

theorem pieces_operands {ω : Type} {k : Connective} (ne : k ≠ .not) (f : Filter ω) :
    [.connective k].intercalate ((f.operands k).map pieces) = f.pieces := by
  cases f with
  | clause c => exact List.intercalate_singleton
  | node l fs =>
    by_cases same : l = k
    · rw [operands, if_pos same, same, pieces_node ne]
    · rw [operands, if_neg same]
      exact List.intercalate_singleton

theorem Layered.pieces_flatten {f : Filter String} (h : f.Layered) :
    f.flatten.pieces = f.pieces := by
  induction h using Built.induct with
  | clause => rfl
  | not f _ _ _ ih =>
    rw [pieces_not, ← ih, Filter.not, flatten_not, List.map_singleton, ← Filter.not, pieces_not]
  | group k fs layered _ ne _ _ ih =>
    rw [flatten_node ne, pieces_node ne, pieces_node ne, List.map_flatMap, intercalate_flatMap]
    · refine congrArg _ (List.map_congr_left fun f hf => ?_)
      exact (pieces_operands ne f.flatten).trans (ih f hf)
    · intro f hf
      have built := (Layered.flatten (layered f hf)).1
      simp [built.operands_ne_nil]

end Pieces

/-- The text of a layered filter is read as the filter regrouped from the left, with the same
clauses in the same order and the same truth, or is refused for the nesting limit, when this filter
is too deep. -/
theorem parse_text_regroups {f : Filter String} (layered : f.Layered) :
    let m := f.flatten.foldLeft
    m.clauses = f.clauses ∧ (∀ v, m.holds v = f.holds v) ∧
      ((m.depth ≤ maxDepth ∧ parse f.text = .ok m) ∨
        (maxDepth < m.depth ∧ ∃ o, parse f.text = .error (.malformed o .tooDeep))) := by
  intro m
  -- the text depends on the pieces alone, which regrouping leaves where they are
  have pieces : m.pieces = f.pieces := (pieces_foldLeft _).trans layered.pieces_flatten
  obtain ⟨ts, spelled⟩ := layered.flatten.1.foldLeft.1.spelled
  have spelling : ts = f.spelling := by
    rw [← spelled.disjunction.spelling_eq, Filter.spelling, pieces]
    rfl
  refine ⟨?_, fun v => ?_, ?_⟩
  · rw [clauses_eq_filterMap, clauses_eq_filterMap, pieces]
  · exact (holds_foldLeft v _).trans (holds_flatten v f)
  · exact parse_of_spelled layered.splits (spelling ▸ spelled.disjunction)

theorem parse_text_regroups_nested :
    let a : Filter String := .clause ⟨"a", .equal, "p", true, none⟩
    let b : Filter String := .clause ⟨"b", .less, "q", false, some true⟩
    let f : Filter String := .node .or [a, .node .and [b, .node .and [a, b.not]], a.or b]
    let m := ((a.or ((b.and a).and b.not)).or a).or b
    let wide : Filter String := .node .and (List.replicate 102 a)
    f.Layered ∧ wide.Layered ∧ m.clauses = f.clauses ∧ (∀ v, m.holds v = f.holds v) ∧
      parse f.text = .ok m ∧ ∃ o, parse wide.text = .error (.malformed o .tooDeep) := by
  intro a b f m wide
  have plain {source : String} {c : Clause String} (read : parse source = .ok (.clause c)) :
      Built Under (.clause c) := by
    cases (expressible_of_parse read).1 with
    | clause plain => exact .clause plain
  have plain_a : a.Built Under := plain (show parse "a==@p true" = .ok a by decide +kernel)
  have plain_b : b.Built Under := plain (show parse "b<@q false true" = .ok b by decide +kernel)
  have layered : f.Built Under := by
    refine .node (by decide) (by simp [Under]) ?_
    have negation : b.not.Built Under :=
      .node rfl (by simp [Under, IsNegation, root?, b]) (by simpa)
    have inner : Built Under (.node .and [a, b.not]) :=
      .node (by decide) (by simp [Under, root?, a, b, Filter.not]) (by simp [plain_a, negation])
    have conjunction : Built Under (.node .and [b, .node .and [a, b.not]]) :=
      .node (by decide) (by simp [Under, root?, b]) (by simp [plain_b, inner])
    have disjunction : Built Under (a.or b) :=
      .node (by decide) (by simp [Under]) (by simp [plain_a, plain_b])
    simp [plain_a, conjunction, disjunction]
  have wide_layered : wide.Built Under :=
    .node (by simp [Connective.Admits]) (by simp [Under, root?, a]) (by simp [plain_a])
  obtain ⟨clauses, truth, ⟨_, read⟩ | ⟨deep, _⟩⟩ := parse_text_regroups layered
  · obtain ⟨_, _, ⟨shallow, _⟩ | ⟨_, refused⟩⟩ := parse_text_regroups wide_layered
    · exact absurd shallow (by decide +kernel)
    · exact ⟨layered, wide_layered, clauses, truth, read, refused⟩
  · exact absurd deep (by decide)

end TableWire.Filter
