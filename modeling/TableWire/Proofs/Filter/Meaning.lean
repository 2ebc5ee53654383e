import TableWire.Proofs.Filter.Pieces
/-!
The truth of filters, and their regrouping: nested parts under one connective are drawn together
and joined again from the left. This changes the shape of a filter, but not its meaning and not the
order of its pieces.
-/

namespace TableWire

/-- The truth of a node, given that of its parts. -/
def Connective.holds : Connective → List Bool → Bool
  | .not, bs => !bs.all id
  | .and, bs => bs.all id
  | .or, bs => bs.any id

namespace Connective

variable {k : Connective}

theorem holds_singleton (ne : k ≠ .not) (b : Bool) : k.holds [b] = b := by
  cases k with
  | not => exact absurd rfl ne
  | and => simp [holds]
  | or => simp [holds]

theorem holds_append (ne : k ≠ .not) (bs cs : List Bool) :
    k.holds (bs ++ cs) = k.holds [k.holds bs, k.holds cs] := by
  cases k with
  | not => exact absurd rfl ne
  | and => simp [holds]
  | or => simp [holds]

/-- Parts may be drawn together under one AND or OR. -/
theorem holds_flatten (ne : k ≠ .not) (bss : List (List Bool)) :
    k.holds bss.flatten = k.holds (bss.map k.holds) := by
  cases k with
  | not => exact absurd rfl ne
  | and =>
    simp only [holds, List.all_flatten, List.all_map]
    rfl
  | or =>
    simp only [holds, List.any_flatten, List.any_map]
    rfl

end Connective

namespace Filter

variable {ω : Type}

mutual

/-- The truth of a filter, given that of its clauses. -/
def holds (v : Clause ω → Bool) : Filter ω → Bool
  | .clause c => v c
  | .node k fs => k.holds (holdsAll v fs)

def holdsAll (v : Clause ω → Bool) : List (Filter ω) → List Bool
  | [] => []
  | f :: fs => holds v f :: holdsAll v fs

end

theorem holds_node (v : Clause ω → Bool) (k : Connective) (fs : List (Filter ω)) :
    (node k fs).holds v = k.holds (fs.map (holds v)) := by
  rw [holds]
  congr 1
  induction fs with
  | nil => rfl
  | cons f fs ih => rw [holdsAll, ih, List.map_cons]

/-- The parts that a filter has to offer to a node above it with the same connective. -/
def operands (k : Connective) : Filter ω → List (Filter ω)
  | .clause c => [.clause c]
  | .node l fs => if l = k then fs else [.node l fs]

mutual

/-- Every AND and every OR takes over the parts of its parts with the same connective. -/
def flatten : Filter ω → Filter ω
  | .clause c => .clause c
  | .node .not fs => .node .not (flattenAll fs)
  | .node k fs => .node k ((flattenAll fs).flatMap (operands k))

def flattenAll : List (Filter ω) → List (Filter ω)
  | [] => []
  | f :: fs => flatten f :: flattenAll fs

end

/-- The filters joined two by two, from the left. -/
def joined (k : Connective) : List (Filter ω) → Filter ω
  | [] => .node k []
  | f :: fs => fs.foldl (fun f g => .node k [f, g]) f

mutual

/-- Every AND and every OR joins its parts from the left. -/
def foldLeft : Filter ω → Filter ω
  | .clause c => .clause c
  | .node .not fs => .node .not (foldLeftAll fs)
  | .node k fs => joined k (foldLeftAll fs)

def foldLeftAll : List (Filter ω) → List (Filter ω)
  | [] => []
  | f :: fs => foldLeft f :: foldLeftAll fs

end

theorem flattenAll_eq_map (fs : List (Filter ω)) : flattenAll fs = fs.map flatten := by
  induction fs with
  | nil => rfl
  | cons f fs ih => rw [flattenAll, ih, List.map_cons]

theorem foldLeftAll_eq_map (fs : List (Filter ω)) : foldLeftAll fs = fs.map foldLeft := by
  induction fs with
  | nil => rfl
  | cons f fs ih => rw [foldLeftAll, ih, List.map_cons]

theorem flatten_not (fs : List (Filter ω)) :
    (node .not fs).flatten = .node .not (fs.map flatten) := by
  rw [flatten, flattenAll_eq_map]

theorem foldLeft_not (fs : List (Filter ω)) :
    (node .not fs).foldLeft = .node .not (fs.map foldLeft) := by
  rw [foldLeft, foldLeftAll_eq_map]

section Node

variable {k : Connective} (ne : k ≠ .not) (v : Clause ω → Bool)

include ne

theorem flatten_node (fs : List (Filter ω)) :
    (node k fs).flatten = .node k (fs.flatMap fun f => f.flatten.operands k) := by
  rw [flatten, flattenAll_eq_map, List.flatMap_map]
  exact ne

theorem foldLeft_node (fs : List (Filter ω)) :
    (node k fs).foldLeft = joined k (fs.map foldLeft) := by
  rw [foldLeft, foldLeftAll_eq_map]
  exact ne

theorem holds_operands (f : Filter ω) : k.holds ((f.operands k).map (holds v)) = f.holds v := by
  cases f with
  | clause c => exact Connective.holds_singleton ne _
  | node l fs =>
    by_cases same : l = k
    · rw [operands, if_pos same, holds_node, same]
    · rw [operands, if_neg same]
      exact Connective.holds_singleton ne _

theorem holds_joined (fs : List (Filter ω)) :
    (joined k fs).holds v = k.holds (fs.map (holds v)) := by
  cases fs with
  | nil => rw [joined, holds_node]
  | cons f fs =>
    rw [joined]
    induction fs generalizing f with
    | nil => exact (Connective.holds_singleton ne _).symm
    | cons g fs ih =>
      rw [List.foldl_cons, ih]
      have two := Connective.holds_append ne [f.holds v, g.holds v] (fs.map (holds v))
      have one := Connective.holds_append ne [(node k [f, g]).holds v] (fs.map (holds v))
      rw [Connective.holds_singleton ne, holds_node] at one
      exact one.trans two.symm

theorem pieces_joined (fs : List (Filter ω)) :
    (joined k fs).pieces = [.connective k].intercalate (fs.map pieces) := by
  cases fs with
  | nil => exact pieces_node ne []
  | cons f fs =>
    rw [joined]
    induction fs generalizing f with
    | nil => simp
    | cons g fs ih =>
      rw [List.foldl_cons, ih, List.map_cons, pieces_join ne]
      cases fs with
      | nil => simp
      | cons h fs => simp

end Node

/-- Regrouping keeps the meaning. -/
theorem holds_flatten (v : Clause ω → Bool) (f : Filter ω) : f.flatten.holds v = f.holds v := by
  induction f using group_induction with
  | clause c => rfl
  | not fs ih =>
    rw [flatten_not, holds_node, holds_node, List.map_map]
    exact congrArg _ (List.map_congr_left ih)
  | group k fs ne ih =>
    rw [flatten_node ne, holds_node, holds_node, List.map_flatMap, List.flatMap_def,
      Connective.holds_flatten ne, List.map_map]
    refine congrArg _ (List.map_congr_left fun f hf => ?_)
    exact (holds_operands ne v f.flatten).trans (ih f hf)

theorem map_foldLeft {α : Type} {g : Filter ω → α} {fs : List (Filter ω)}
    (h : ∀ f ∈ fs, g f.foldLeft = g f) : (fs.map foldLeft).map g = fs.map g := by
  rw [List.map_map]
  exact List.map_congr_left h

theorem holds_foldLeft (v : Clause ω → Bool) (f : Filter ω) : f.foldLeft.holds v = f.holds v := by
  induction f using group_induction with
  | clause c => rfl
  | not fs ih => rw [foldLeft_not, holds_node, holds_node, map_foldLeft ih]
  | group k fs ne ih => rw [foldLeft_node ne, holds_joined ne, holds_node, map_foldLeft ih]

/-- Regrouping keeps the order of the pieces. -/
theorem pieces_foldLeft (f : Filter ω) : f.foldLeft.pieces = f.pieces := by
  induction f using group_induction with
  | clause c => rfl
  | not fs ih =>
    rw [foldLeft_not, pieces, pieces, piecesAll_eq_map, piecesAll_eq_map, map_foldLeft ih]
  | group k fs ne ih => rw [foldLeft_node ne, pieces_joined ne, pieces_node ne, map_foldLeft ih]

end Filter

end TableWire
