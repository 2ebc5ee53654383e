import TableWire.Filter.Basic
/-!
Filters as text. There are no parentheses, so the text alone does not always tell the shape.
-/

namespace TableWire

def boolText (b : Bool) : String := if b then "true" else "false"

def Clause.text (c : Clause String) : String :=
  let flags := match c.latestOnly with
    | none => boolText c.passIfMissing
    | some latest => boolText c.passIfMissing ++ " " ++ boolText latest
  c.column ++ " " ++ c.comparison.text ++ " @" ++ c.operand ++ " " ++ flags

namespace Filter

mutual

def text : Filter String → String
  | .clause c => c.text
  | .node .not fs => "NOT " ++ (texts fs).headD ""
  | .node k fs => String.intercalate (" " ++ k.text ++ " ") (texts fs)

def texts : List (Filter String) → List String
  | [] => []
  | f :: fs => text f :: texts fs

end

end Filter

end TableWire
