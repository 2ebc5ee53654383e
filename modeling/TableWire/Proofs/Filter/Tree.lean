import Mathlib
import TableWire.Filter.Basic
/-!
Filters as trees: induction over the parts of nodes, and the clauses at the leaves.
-/

namespace TableWire.Filter

variable {ω : Type}

@[elab_as_elim, induction_eliminator]
theorem induction {motive : Filter ω → Prop} (clause : ∀ c, motive (.clause c))
    (node : ∀ k fs, (∀ f ∈ fs, motive f) → motive (.node k fs)) : ∀ f, motive f
  | .clause c => clause c
  | .node k fs => node k fs fun f _ => induction clause node f

/-- Negations stand before their part, the other connectives between theirs. -/
@[elab_as_elim]
theorem group_induction {motive : Filter ω → Prop} (clause : ∀ c, motive (.clause c))
    (not : ∀ fs, (∀ f ∈ fs, motive f) → motive (.node .not fs))
    (group : ∀ k fs, k ≠ .not → (∀ f ∈ fs, motive f) → motive (.node k fs)) (f : Filter ω) :
    motive f := by
  induction f with
  | clause c => exact clause c
  | node k fs ih =>
    by_cases same : k = .not
    · exact same ▸ not fs ih
    · exact group k fs same ih

mutual

/-- The clauses from left to right. -/
def clauses : Filter ω → List (Clause ω)
  | .clause c => [c]
  | .node _ fs => clausesAll fs

def clausesAll : List (Filter ω) → List (Clause ω)
  | [] => []
  | f :: fs => clauses f ++ clausesAll fs

end

theorem forall_clausesAll {p : Clause ω → Prop} {fs : List (Filter ω)} :
    (∀ c ∈ clausesAll fs, p c) ↔ ∀ f ∈ fs, ∀ c ∈ f.clauses, p c := by
  induction fs with
  | nil => simp [clausesAll]
  | cons f fs ih => simp [clausesAll, or_imp, forall_and, ih]

theorem depthAll_le_iff {fs : List (Filter ω)} {n : Nat} :
    depthAll fs ≤ n ↔ ∀ f ∈ fs, f.depth ≤ n := by
  induction fs with
  | nil => simp [depthAll]
  | cons f fs ih => simp [depthAll, ih]

/-- Related parts, with what is known of the parts of one side. -/
theorem forall₂_imp_of_mem {α β : Type} {R S : α → β → Prop} {as : List α} {bs : List β}
    (h : List.Forall₂ R as bs) (imp : ∀ a ∈ as, ∀ b, R a b → S a b) : List.Forall₂ S as bs :=
  ((List.forall₂_and_left as bs).mpr ⟨fun _ ha => ha, h⟩).imp fun a b h => imp a h.1 b h.2

/-- Parts related in two steps are related to parts between. -/
theorem forall₂_exists_iff {α β γ : Type} {R : α → β → Prop} {S : β → γ → Prop} {as : List α}
    {cs : List γ} : List.Forall₂ (fun a c => ∃ b, R a b ∧ S b c) as cs ↔
      ∃ bs, List.Forall₂ R as bs ∧ List.Forall₂ S bs cs := by
  induction as generalizing cs with
  | nil => simp
  | cons a as ih =>
    constructor
    · intro parts
      cases parts with
      | cons first others =>
        obtain ⟨b, one, two⟩ := first
        obtain ⟨bs, ones, twos⟩ := ih.mp others
        exact ⟨b :: bs, .cons one ones, .cons two twos⟩
    · rintro ⟨_, _ | ⟨one, ones⟩, parts⟩
      cases parts with
      | cons two twos => exact .cons ⟨_, one, two⟩ (ih.mpr ⟨_, ones, twos⟩)

end TableWire.Filter
