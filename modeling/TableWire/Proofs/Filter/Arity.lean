import TableWire.Except
import TableWire.Proofs.Filter.Regrouping
import TableWire.Proofs.Filter.Substitution
/-!
How many parts the nodes of a filter have. Whatever calls make a filter, at every depth a NOT stands
above one part, and an AND or OR above two and more; and every filter of which this is true can be
made.
-/

namespace TableWire

theorem Comparison.ofSymbol_eq_ok {text : String} {c : Comparison} :
    ofSymbol text = .ok c ↔ text = c.text := by
  rw [← ofText?_eq_some_iff, ofSymbol]
  cases ofText? text <;> simp

theorem Comparison.ofSymbol_eq_error {text : String} {e : FilterError} : ofSymbol text = .error e ↔
    (∀ c : Comparison, text ≠ c.text) ∧ e = .unsupportedComparison text := by
  simp only [ne_eq, ← ofText?_eq_some_iff, ofSymbol]
  cases ofText? text <;> simp [eq_comm]

theorem Connective.ofSymbol_eq_ok {text : String} {k : Connective} :
    ofSymbol text = .ok k ↔ text = k.text := by
  rw [← ofText?_eq_some_iff, ofSymbol]
  cases ofText? text <;> simp

theorem Connective.ofSymbol_eq_error {text : String} {e : FilterError} : ofSymbol text = .error e ↔
    (∀ k : Connective, text ≠ k.text) ∧ e = .unsupportedConnective text := by
  simp only [ne_eq, ← ofText?_eq_some_iff, ofSymbol]
  cases ofText? text <;> simp [eq_comm]

namespace Filter

section Nodes

variable {ω : Type} {P Q : Connective → List (Filter ω) → Prop} {k : Connective}
  {fs : List (Filter ω)} {f : Filter ω}

/-- The property holds of every node, at every depth. -/
def EveryNode (P : Connective → List (Filter ω) → Prop) (f : Filter ω) : Prop :=
  ∀ p k fs, f.at? p = some (.node k fs) → P k fs

@[simp] theorem everyNode_clause (c : Clause ω) : (clause c).EveryNode P := by
  intro p k fs at_end
  cases p <;> cases at_end

theorem everyNode_node :
    (node k fs).EveryNode P ↔ P k fs ∧ ∀ f ∈ fs, f.EveryNode P := by
  constructor
  · intro h
    refine ⟨h [] k fs (at?_nil _), fun f hf p l gs at_end => ?_⟩
    obtain ⟨i, part⟩ := List.getElem?_of_mem hf
    exact h (i :: p) l gs (by simp [part, at_end])
  · rintro ⟨root, parts⟩ p l gs at_end
    cases p with
    | nil =>
      cases (at?_nil _).symm.trans at_end
      exact root
    | cons i p =>
      obtain ⟨f, part, at_end⟩ := Option.bind_eq_some_iff.mp at_end
      exact parts f (List.mem_of_getElem? part) p l gs at_end

theorem EveryNode.imp (h : f.EveryNode P) (imp : ∀ k fs, P k fs → Q k fs) : f.EveryNode Q :=
  fun p k fs at_end => imp k fs (h p k fs at_end)

/-- Every connective stands above as many parts as it takes. -/
def Admitted (f : Filter ω) : Prop := f.EveryNode fun k fs => k.Admits fs.length

theorem admitted_node : (node k fs).Admitted ↔ k.Admits fs.length ∧ ∀ f ∈ fs, f.Admitted :=
  everyNode_node

theorem Admitted.latestVersionOnly (h : f.Admitted) (latest : Bool) :
    (f.latestVersionOnly latest).Admitted := by
  cases f with
  | clause c => exact everyNode_clause _
  | node k fs => exact h

end Nodes

section Calls

variable {ω : Type} {column symbol name : String} {operand : ω} {passIfMissing : Bool}
  {fs : List (Filter ω)} {f : Filter ω} {e : FilterError}

theorem ofSymbol_eq_ok : ofSymbol column symbol operand passIfMissing = .ok f ↔
    ∃ c : Comparison, symbol = c.text ∧ f = .clause ⟨column, c, operand, passIfMissing, none⟩ := by
  simp only [ofSymbol, Except.bind_eq_ok, Except.pure_eq_ok, Comparison.ofSymbol_eq_ok]
  exact exists_congr fun c => and_congr_right fun _ => eq_comm

theorem ofSymbol_eq_error : ofSymbol column symbol operand passIfMissing = .error e ↔
    (∀ c : Comparison, symbol ≠ c.text) ∧ e = .unsupportedComparison symbol := by
  rw [ofSymbol, Except.bind_eq_error, Comparison.ofSymbol_eq_error]
  simp [pure, Except.pure]

theorem join_eq_ok : join name fs = .ok f ↔
    ∃ k : Connective, name = k.text ∧ k.Admits fs.length ∧ f = .node k fs := by
  simp only [join, Except.bind_eq_ok, Connective.ofSymbol_eq_ok]
  refine exists_congr fun k => and_congr_right fun _ => ?_
  split <;> simp_all [pure, Except.pure, throw, throwThe, MonadExceptOf.throw, eq_comm]

theorem join_eq_error : join name fs = .error e ↔
    (∀ k : Connective, name ≠ k.text) ∧ e = .unsupportedConnective name ∨
      ∃ k : Connective, name = k.text ∧ ¬ k.Admits fs.length ∧ e = .invalidArity k fs.length := by
  simp only [join, Except.bind_eq_error, Connective.ofSymbol_eq_ok, Connective.ofSymbol_eq_error]
  refine or_congr_right (exists_congr fun k => and_congr_right fun _ => ?_)
  split <;> simp_all [pure, Except.pure, throw, throwThe, MonadExceptOf.throw, eq_comm]

end Calls

/-- The filters that calls make, each from filters that were made before it. -/
inductive Made : Filter String → Prop
  | ofSymbol {column symbol operand : String} {passIfMissing : Bool} {f : Filter String} :
    ofSymbol column symbol operand passIfMissing = .ok f → Made f
  | join {name : String} {fs : List (Filter String)} {f : Filter String} :
    (∀ g ∈ fs, Made g) → join name fs = .ok f → Made f
  | not {f : Filter String} : Made f → Made f.not
  | and {f g : Filter String} : Made f → Made g → Made (f.and g)
  | or {f g : Filter String} : Made f → Made g → Made (f.or g)
  | latestVersionOnly {f : Filter String} (latest : Bool) :
    Made f → Made (f.latestVersionOnly latest)
  | parse {source : String} {f : Filter String} : parse source = .ok f → Made f

section Made

variable {k : Connective} {fs : List (Filter String)} {f g : Filter String} {source : String}

/-- A reader joins no more than two parts at a time. -/
theorem Groups.length_eq (h : Groups k fs) : fs.length = if k = .not then 1 else 2 := by
  match k, fs, h with
  | .not, [_], _ => rfl
  | .and, [_, _], _ => rfl
  | .or, [_, _], _ => rfl

theorem Expressible.everyNode (h : f.Expressible) :
    f.EveryNode fun k fs => fs.length = if k = .not then 1 else 2 := by
  induction h with
  | clause => exact everyNode_clause _
  | node groups _ ih => exact everyNode_node.mpr ⟨groups.length_eq, ih⟩

theorem Expressible.admitted (h : f.Expressible) : f.Admitted := by
  refine h.everyNode.imp fun k fs count => ?_
  cases k with
  | not => exact count
  | and => exact Nat.le_of_eq count.symm
  | or => exact Nat.le_of_eq count.symm

theorem Made.admitted (h : Made f) : f.Admitted := by
  induction h with
  | ofSymbol run =>
    obtain ⟨c, _, rfl⟩ := ofSymbol_eq_ok.mp run
    exact everyNode_clause _
  | join _ run ih =>
    obtain ⟨k, _, admits, rfl⟩ := join_eq_ok.mp run
    exact admitted_node.mpr ⟨admits, ih⟩
  | not _ ih => exact admitted_node.mpr ⟨rfl, by simpa using ih⟩
  | and _ _ ih ih' => exact admitted_node.mpr ⟨Nat.le_refl 2, by simpa using ⟨ih, ih'⟩⟩
  | or _ _ ih ih' => exact admitted_node.mpr ⟨Nat.le_refl 2, by simpa using ⟨ih, ih'⟩⟩
  | latestVersionOnly latest _ ih => exact ih.latestVersionOnly latest
  | parse run => exact (expressible_of_parse run).1.admitted

theorem made_clause (c : Clause String) : Made (.clause c) := by
  obtain ⟨column, comparison, operand, passIfMissing, latest⟩ := c
  have made : Made (.clause ⟨column, comparison, operand, passIfMissing, none⟩) :=
    .ofSymbol (ofSymbol_eq_ok.mpr ⟨comparison, rfl, rfl⟩)
  cases latest with
  | none => exact made
  | some latest => exact .latestVersionOnly latest made

/-- Nothing is left out: what the calls make is what the connectives admit. -/
theorem made_iff_admitted : Made f ↔ f.Admitted := by
  refine ⟨Made.admitted, fun h => ?_⟩
  induction f with
  | clause c => exact made_clause c
  | node k fs ih =>
    obtain ⟨admits, parts⟩ := admitted_node.mp h
    exact .join (fun f hf => ih f hf (parts f hf)) (join_eq_ok.mpr ⟨k, rfl, admits, rfl⟩)

theorem exists_join_eq_ok_iff (made : ∀ f ∈ fs, Made f) :
    (∃ f, join k.text fs = .ok f) ↔ Made (.node k fs) := by
  constructor
  · rintro ⟨f, run⟩
    obtain ⟨l, same, _, rfl⟩ := join_eq_ok.mp run
    obtain rfl : k = l := by simpa [same] using (Connective.ofText?_text k).symm
    exact .join made run
  · intro h
    exact ⟨_, join_eq_ok.mpr ⟨k, rfl, (admitted_node.mp h.admitted).1, rfl⟩⟩

/-- The text of a NOT is that of its first part, which is there. -/
theorem Admitted.parts (h : f.Admitted) {p : List Nat} (at_end : f.at? p = some (.node k fs)) :
    (k = .not → ∃ g, fs[0]? = some g ∧ fs.length = 1 ∧ (node k fs).text = "NOT " ++ g.text) ∧
      (k ≠ .not → 2 ≤ fs.length) := by
  have admits := h p k fs at_end
  refine ⟨?_, fun ne => (admits_iff ne).mp admits⟩
  rintro rfl
  obtain ⟨g, rfl⟩ := List.length_eq_one_iff.mp admits
  exact ⟨g, rfl, rfl, by simp [text, texts]⟩

/-- The filters that calls make are those whose nodes have, at every depth, one part below a NOT and
two or more below an AND or OR; exactly two where the filter has been read. A call fails for an
unknown symbol, and a join besides for a count of parts that no filter could have. The flag of a
filter is that of its clause. -/
theorem made_iff :
    (∀ f, Made f ↔ ∀ p k fs, f.at? p = some (.node k fs) → k.Admits fs.length) ∧
    (∀ f, Made f → ∀ p k fs, f.at? p = some (.node k fs) →
      (k = .not → ∃ g, fs[0]? = some g ∧ fs.length = 1 ∧ (node k fs).text = "NOT " ++ g.text) ∧
      (k ≠ .not → 2 ≤ fs.length)) ∧
    (∀ source f, parse source = .ok f → ∀ p k fs, f.at? p = some (.node k fs) →
      fs.length = if k = .not then 1 else 2) ∧
    (∀ column symbol (operand : String) passIfMissing,
      (∀ f, ofSymbol column symbol operand passIfMissing = .ok f ↔ ∃ c : Comparison,
        symbol = c.text ∧ f = .clause ⟨column, c, operand, passIfMissing, none⟩) ∧
      ∀ e, ofSymbol column symbol operand passIfMissing = .error e ↔
        (∀ c : Comparison, symbol ≠ c.text) ∧ e = .unsupportedComparison symbol) ∧
    (∀ name (fs : List (Filter String)),
      (∀ f, join name fs = .ok f ↔ ∃ k : Connective,
        name = k.text ∧ k.Admits fs.length ∧ f = .node k fs) ∧
      ∀ e, join name fs = .error e ↔
        (∀ k : Connective, name ≠ k.text) ∧ e = .unsupportedConnective name ∨
          ∃ k : Connective, name = k.text ∧ ¬ k.Admits fs.length ∧ e = .invalidArity k fs.length) ∧
    (∀ (k : Connective) fs, (∀ f ∈ fs, Made f) →
      ((∃ f, join k.text fs = .ok f) ↔ Made (.node k fs))) ∧
    ∀ latest, (∀ c : Clause String,
        latestVersionOnly latest (.clause c) = .clause { c with latestOnly := some latest }) ∧
      ∀ k (fs : List (Filter String)), latestVersionOnly latest (.node k fs) = .node k fs :=
  ⟨fun _ => made_iff_admitted,
    fun _ made _ _ _ => made.admitted.parts,
    fun _ _ run => (expressible_of_parse run).1.everyNode,
    fun _ _ _ _ => ⟨fun _ => ofSymbol_eq_ok, fun _ => ofSymbol_eq_error⟩,
    fun _ _ => ⟨fun _ => join_eq_ok, fun _ => join_eq_error⟩,
    fun _ _ made => exists_join_eq_ok_iff made,
    fun _ => ⟨fun _ => rfl, fun _ _ => rfl⟩⟩

theorem made_iff_joined :
    let a : Filter String := .clause ⟨"a", .equal, "p", true, some false⟩
    let b : Filter String := .clause ⟨"b", .less, "q", false, none⟩
    let read := (a.and b.not).and a
    let f := Filter.node .or [read, (read.or b).not, b.latestVersionOnly true]
    parse "a == @p true false AND NOT b < @q false AND a == @p true false" = .ok read ∧
      Made f ∧ (f.at? [1] = some (read.or b).not) ∧
      (read.or b).not.text = "NOT " ++ (read.or b).text ∧
      (∃ g, join "OR" [read, b] = .ok g) ∧ ¬ ∃ g, join "NOT" [read, b] = .ok g := by
  intro a b read f
  obtain ⟨made_iff, parts, binary, _, _, join_iff, _⟩ := made_iff
  have run : parse "a == @p true false AND NOT b < @q false AND a == @p true false" = .ok read := by
    decide +kernel
  have single : Made b := made_clause _
  have both : ∀ g ∈ [read, b], Made g := by simpa using ⟨.parse run, single⟩
  have three : ∀ g ∈ [read, (read.or b).not, b.latestVersionOnly true], Made g := by
    simpa using ⟨Made.parse run, Made.not (.or (.parse run) single), .latestVersionOnly true single⟩
  have made : Made f := .join three (show join "OR" _ = .ok f from rfl)
  obtain ⟨g, first, _, text⟩ := (parts f made [1] .not _ rfl).1 rfl
  cases first
  refine ⟨run, made, rfl, text, (join_iff .or _ both).mpr (.or (.parse run) single), ?_⟩
  intro joined
  have two := (made_iff _).mp ((join_iff .not _ both).mp joined) [] .not _ rfl
  exact absurd two (by decide)

end Made

end Filter

end TableWire
