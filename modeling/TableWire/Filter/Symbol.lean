/-!
The symbols of filters: six comparisons and three connectives, with their texts and codes.
-/

namespace TableWire

inductive Comparison : Type
  | equal
  | notEqual
  | greater
  | greaterEqual
  | less
  | lessEqual
  deriving DecidableEq, Repr

namespace Comparison

def text : Comparison → String
  | .equal => "=="
  | .notEqual => "!="
  | .greater => ">"
  | .greaterEqual => ">="
  | .less => "<"
  | .lessEqual => "<="

def ofText? : String → Option Comparison
  | "==" => some .equal
  | "!=" => some .notEqual
  | ">" => some .greater
  | ">=" => some .greaterEqual
  | "<" => some .less
  | "<=" => some .lessEqual
  | _ => none

def code : Comparison → Nat
  | .equal => 1
  | .notEqual => 2
  | .greater => 3
  | .greaterEqual => 4
  | .less => 5
  | .lessEqual => 6

def ofCode? : Int → Option Comparison
  | 1 => some .equal
  | 2 => some .notEqual
  | 3 => some .greater
  | 4 => some .greaterEqual
  | 5 => some .less
  | 6 => some .lessEqual
  | _ => none

@[simp] theorem ofText?_text (c : Comparison) : ofText? c.text = some c := by
  cases c <;> rfl

theorem ofText?_eq_some_iff {s : String} {c : Comparison} :
    ofText? s = some c ↔ s = c.text := by
  constructor
  · intro h
    unfold ofText? at h
    split at h <;> cases h <;> rfl
  · rintro rfl
    exact ofText?_text c

@[simp] theorem ofCode?_code (c : Comparison) : ofCode? c.code = some c := by
  cases c <;> rfl

end Comparison

inductive Connective : Type
  | not
  | and
  | or
  deriving DecidableEq, Repr

namespace Connective

def text : Connective → String
  | .not => "NOT"
  | .and => "AND"
  | .or => "OR"

def ofText? : String → Option Connective
  | "NOT" => some .not
  | "AND" => some .and
  | "OR" => some .or
  | _ => none

def code : Connective → Nat
  | .not => 1
  | .and => 2
  | .or => 3

def ofCode? : Int → Option Connective
  | 1 => some .not
  | 2 => some .and
  | 3 => some .or
  | _ => none

/-- Negation takes one part, the others two or more. -/
def Admits (c : Connective) (parts : Nat) : Prop :=
  match c with
  | .not => parts = 1
  | .and | .or => 2 ≤ parts

instance (c : Connective) (parts : Nat) : Decidable (c.Admits parts) := by
  cases c <;> unfold Admits <;> infer_instance

def arityText : Connective → String
  | .not => "1"
  | .and | .or => ">=2"

@[simp] theorem ofText?_text (c : Connective) : ofText? c.text = some c := by
  cases c <;> rfl

theorem ofText?_eq_some_iff {s : String} {c : Connective} :
    ofText? s = some c ↔ s = c.text := by
  constructor
  · intro h
    unfold ofText? at h
    split at h <;> cases h <;> rfl
  · rintro rfl
    exact ofText?_text c

@[simp] theorem ofCode?_code (c : Connective) : ofCode? c.code = some c := by
  cases c <;> rfl

end Connective

end TableWire
