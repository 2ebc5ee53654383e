import TableWire.Dictionary
import TableWire.Filter.Basic
import TableWire.Value.Basic
/-!
Replacing the parameters of a filter by the values bound to them.
-/

namespace TableWire

abbrev Bindings : Type := Dictionary Value

namespace Filter

/-- A null, or a value still to be assigned, is nothing to compare with. -/
def isOperand : Value → Bool
  | .null | .autoIncrement => false
  | _ => true

def resolveClause (b : Bindings) (c : Clause String) : Except CompileError (Clause Value) :=
  match b.get? c.operand with
  | none => .error (.missingParameter c.operand)
  | some v =>
    if isOperand v then .ok { c with operand := v }
    else .error (.operand c.operand (.unsupported "filter operand"))

/-- Stops below a path of `depth` connectives that has grown too long. -/
def checkDepth (depth : Nat) : Except CompileError Unit :=
  if depth ≤ maxDepth then .ok () else .error (.filter .tooDeep)

mutual

/-- Resolves a filter that stands below `depth` connectives. -/
def resolveAt (b : Bindings) (depth : Nat) : Filter String → Except CompileError (Filter Value)
  | .clause c => return .clause (← resolveClause b c)
  | .node k fs => do
    checkDepth (depth + 1)
    return .node k (← resolveAllAt b (depth + 1) fs)

def resolveAllAt (b : Bindings) (depth : Nat) :
    List (Filter String) → Except CompileError (List (Filter Value))
  | [] => return []
  | f :: fs => return (← resolveAt b depth f) :: (← resolveAllAt b depth fs)

end

def resolve (f : Filter String) (b : Bindings) : Except CompileError (Filter Value) :=
  resolveAt b 0 f

end Filter

end TableWire
