import TableWire.Proofs.Filter.Syntax
import TableWire.Proofs.Filter.Tree
/-!
The pieces of filters in the order of their text: clauses, and the connectives before and between
them. Reading loses none of them and adds none, so a filter tells the tokens that it was read from.
-/

namespace TableWire

inductive Piece (ω : Type) : Type
  | clause : Clause ω → Piece ω
  | connective : Connective → Piece ω

namespace Piece

def clause? {ω : Type} : Piece ω → Option (Clause ω)
  | .clause c => some c
  | .connective _ => none

def tokens : Piece String → List Token
  | .clause c => c.tokens
  | .connective k => [.keyword k]

end Piece

namespace Filter

section

variable {ω : Type}

mutual

/-- The pieces from left to right. -/
def pieces : Filter ω → List (Piece ω)
  | .clause c => [.clause c]
  | .node .not fs => .connective .not :: (piecesAll fs).flatten
  | .node k fs => [.connective k].intercalate (piecesAll fs)

def piecesAll : List (Filter ω) → List (List (Piece ω))
  | [] => []
  | f :: fs => pieces f :: piecesAll fs

end

theorem piecesAll_eq_map (fs : List (Filter ω)) : piecesAll fs = fs.map pieces := by
  induction fs with
  | nil => rfl
  | cons f fs ih => rw [piecesAll, ih, List.map_cons]

theorem pieces_not (f : Filter ω) : f.not.pieces = .connective .not :: f.pieces := by
  simp [not, pieces, piecesAll]

theorem pieces_node {k : Connective} (ne : k ≠ .not) (fs : List (Filter ω)) :
    (node k fs).pieces = [.connective k].intercalate (fs.map pieces) := by
  rw [pieces, piecesAll_eq_map]
  exact ne

theorem pieces_join {k : Connective} (ne : k ≠ .not) (f g : Filter ω) :
    (node k [f, g]).pieces = f.pieces ++ .connective k :: g.pieces := by
  simp [pieces_node ne]

theorem clausesAll_eq_flatMap (fs : List (Filter ω)) : clausesAll fs = fs.flatMap clauses := by
  induction fs with
  | nil => rfl
  | cons f fs ih => rw [clausesAll, ih, List.flatMap_cons]

/-- The connectives between lists of pieces hold no clauses. -/
theorem filterMap_clause?_intercalate (k : Connective) (pss : List (List (Piece ω))) :
    ([.connective k].intercalate pss).filterMap Piece.clause? =
      pss.flatMap (·.filterMap Piece.clause?) := by
  induction pss with
  | nil => rfl
  | cons ps pss ih =>
    cases pss with
    | nil => simp
    | cons qs pss =>
      rw [List.intercalate_cons_cons, List.append_assoc, List.filterMap_append,
        List.filterMap_append, ih]
      rfl

/-- The clauses stand in the order of the text. -/
theorem clauses_eq_filterMap (f : Filter ω) : f.clauses = f.pieces.filterMap Piece.clause? := by
  induction f using group_induction with
  | clause c => rfl
  | not fs ih =>
    rw [clauses, clausesAll_eq_flatMap, List.flatMap_congr ih, pieces, piecesAll_eq_map,
      List.filterMap_cons_none rfl, List.filterMap_flatten, List.map_map, List.flatMap_def]
    rfl
  | group k fs ne ih =>
    rw [clauses, clausesAll_eq_flatMap, List.flatMap_congr ih, pieces_node ne,
      filterMap_clause?_intercalate, List.flatMap_map]

end

/-- The tokens that the pieces are spelled with. -/
def spelling (f : Filter String) : List Token := f.pieces.flatMap Piece.tokens

theorem spelling_clause (c : Clause String) : (clause c).spelling = c.tokens := List.append_nil _

theorem spelling_not (f : Filter String) : f.not.spelling = .keyword .not :: f.spelling := by
  rw [spelling, pieces_not]
  rfl

theorem spelling_join {k : Connective} (ne : k ≠ .not) (f g : Filter String) :
    (node k [f, g]).spelling = f.spelling ++ .keyword k :: g.spelling := by
  rw [spelling, pieces_join ne, List.flatMap_append]
  rfl

section Reading

variable {ts : List Token} {f : Filter String}

theorem Negation.spelling_eq (h : Negation ts f) : f.spelling = ts := by
  induction h with
  | clause => exact spelling_clause _
  | not _ ih => rw [spelling_not, ih]

theorem Chain.spelling_eq {k : Connective} {P : List Token → Filter String → Prop} (ne : k ≠ .not)
    (operands : ∀ {us g}, P us g → g.spelling = us) (h : Chain k P ts f) : f.spelling = ts := by
  induction h with
  | single operand => exact operands operand
  | join _ operand ih => rw [spelling_join ne, ih, operands operand]

/-- A filter that is spelled tells its tokens. -/
theorem Disjunction.spelling_eq (h : Disjunction ts f) : f.spelling = ts :=
  Chain.spelling_eq (by decide) (Chain.spelling_eq (by decide) Negation.spelling_eq) h

end Reading

end Filter

end TableWire
