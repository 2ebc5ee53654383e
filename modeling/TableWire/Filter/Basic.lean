import TableWire.Filter.Error
/-!
Filters: clauses, each comparing one column with an operand, under connectives. `Filter String` is a
filter whose operands are names of parameters, `Filter Value` one whose operands are known.
-/

namespace TableWire

structure Clause (ω : Type) : Type where
  column : String
  comparison : Comparison
  operand : ω
  /-- Whether rows without the column pass. -/
  passIfMissing : Bool
  /-- Whether only the newest version of the column is compared. -/
  latestOnly : Option Bool := none
  deriving DecidableEq, Repr

inductive Filter (ω : Type) : Type
  | clause : Clause ω → Filter ω
  | node : Connective → List (Filter ω) → Filter ω
  deriving Repr

namespace Filter

variable {ω : Type}

def not (f : Filter ω) : Filter ω := .node .not [f]

def and (f g : Filter ω) : Filter ω := .node .and [f, g]

def or (f g : Filter ω) : Filter ω := .node .or [f, g]

def latestVersionOnly (latest : Bool) : Filter ω → Filter ω
  | .clause c => .clause { c with latestOnly := some latest }
  | .node k fs => .node k fs

mutual

/-- The greatest number of connectives on a path from the root. -/
def depth : Filter ω → Nat
  | .clause _ => 0
  | .node _ fs => depthAll fs + 1

def depthAll : List (Filter ω) → Nat
  | [] => 0
  | f :: fs => max (depth f) (depthAll fs)

end

mutual

def decEq [DecidableEq ω] : (f g : Filter ω) → Decidable (f = g)
  | .clause c, .clause d => decidable_of_iff (c = d) (by simp)
  | .clause _, .node _ _ => isFalse (by simp)
  | .node _ _, .clause _ => isFalse (by simp)
  | .node k fs, .node l gs =>
    have := decEqAll fs gs
    decidable_of_iff (k = l ∧ fs = gs) (by simp)

def decEqAll [DecidableEq ω] : (fs gs : List (Filter ω)) → Decidable (fs = gs)
  | [], [] => isTrue rfl
  | [], _ :: _ => isFalse (by simp)
  | _ :: _, [] => isFalse (by simp)
  | f :: fs, g :: gs =>
    have := decEq f g
    have := decEqAll fs gs
    decidable_of_iff (f = g ∧ fs = gs) (by simp)

end

instance [DecidableEq ω] : DecidableEq (Filter ω) := decEq

/-- A clause from the symbol of its comparison. -/
def ofSymbol (column symbol : String) (operand : ω) (passIfMissing : Bool) :
    Except FilterError (Filter ω) := do
  let comparison ← Comparison.ofSymbol symbol
  return .clause { column, comparison, operand, passIfMissing }

/-- Joins filters under the connective of the given name, if it takes as many. -/
def join (connective : String) (parts : List (Filter ω)) : Except FilterError (Filter ω) := do
  let k ← Connective.ofSymbol connective
  if k.Admits parts.length then return .node k parts
  else throw (.invalidArity k parts.length)

end Filter

end TableWire
