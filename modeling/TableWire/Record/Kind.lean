/-!
The two kinds of filter record: a comparison of one column, and a combination of filters.
-/

namespace TableWire

inductive RecordKind : Type
  | single
  | composite
  deriving DecidableEq, Repr

namespace RecordKind

def code : RecordKind → Nat
  | .single => 1
  | .composite => 2

def ofCode? : Int → Option RecordKind
  | 1 => some .single
  | 2 => some .composite
  | _ => none

def text : RecordKind → String
  | .single => "SingleColumnValue"
  | .composite => "CompositeColumnValue"

@[simp] theorem ofCode?_code (k : RecordKind) : ofCode? k.code = some k := by
  cases k <;> rfl

end RecordKind

end TableWire
