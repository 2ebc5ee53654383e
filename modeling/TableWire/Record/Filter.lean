import TableWire.Bytes.Utf8
import TableWire.Filter.Symbol
import TableWire.Record.Field
import TableWire.Record.Kind
/-!
The records of filters: an envelope that names the kind of the record inside it, the comparison of a
single column, and a combination of enveloped filters. Enumerations are kept as the words they were
read as; a field that is missing keeps its default, and the last of several wins.
-/

namespace TableWire

structure Envelope : Type where
  kind : Int32 := 1
  body : Bytes := []
  deriving DecidableEq, Repr

structure SingleRecord : Type where
  comparison : Int32 := 1
  column : String := ""
  /-- A value, as the wire writes it. -/
  operand : Bytes := []
  passIfMissing : Bool := false
  latestOnly : Option Bool := none
  deriving DecidableEq, Repr

structure CompositeRecord : Type where
  connective : Int32 := 1
  parts : List Envelope := []
  deriving DecidableEq, Repr

namespace Field

/-- How deep groups may nest in a record; one less in a record inside it. -/
def maxNesting : Nat := 100

/-- Reads a record field by field. -/
def readInto {ρ : Type} (budget : Nat) (set : ρ → Field → Option ρ) (initial : ρ) (bs : Bytes) :
    Option ρ := do
  (← readAll budget bs).foldlM set initial

end Field

namespace Envelope

def fields (e : Envelope) : List (Nat × Payload) := [(1, .ofInt32 e.kind), (2, .chunk e.body)]

def encode (e : Envelope) : Bytes := Field.encodeAll e.fields

def set (e : Envelope) : Field → Option Envelope
  | ⟨1, p⟩ => do return { e with kind := ← (← p).toInt32? }
  | ⟨2, p⟩ => do return { e with body := ← (← p).toChunk? }
  | _ => some e

def decodeIn (budget : Nat) (bs : Bytes) : Option Envelope := Field.readInto budget set {} bs

def decode? (bs : Bytes) : Option Envelope := decodeIn Field.maxNesting bs

/-- The kind, a single column when the word names none. -/
def kindOrDefault (e : Envelope) : RecordKind := (RecordKind.ofCode? e.kind.toInt).getD .single

end Envelope

namespace SingleRecord

def fields (r : SingleRecord) : List (Nat × Payload) :=
  [(1, .ofInt32 r.comparison), (2, .chunk (Utf8.encode r.column)), (3, .chunk r.operand),
    (4, .ofBool r.passIfMissing)] ++ r.latestOnly.toList.map fun b => (5, .ofBool b)

def encode (r : SingleRecord) : Bytes := Field.encodeAll r.fields

def set (r : SingleRecord) : Field → Option SingleRecord
  | ⟨1, p⟩ => do return { r with comparison := ← (← p).toInt32? }
  | ⟨2, p⟩ => do return { r with column := ← Utf8.decode? (← (← p).toChunk?) }
  | ⟨3, p⟩ => do return { r with operand := ← (← p).toChunk? }
  | ⟨4, p⟩ => do return { r with passIfMissing := ← (← p).toBool? }
  | ⟨5, p⟩ => do return { r with latestOnly := some (← (← p).toBool?) }
  | _ => some r

def decode? (bs : Bytes) : Option SingleRecord := Field.readInto Field.maxNesting set {} bs

/-- The comparison, equality when the word names none. -/
def comparisonOrDefault (r : SingleRecord) : Comparison :=
  (Comparison.ofCode? r.comparison.toInt).getD .equal

end SingleRecord

namespace CompositeRecord

def fields (r : CompositeRecord) : List (Nat × Payload) :=
  (1, .ofInt32 r.connective) :: r.parts.map fun e => (2, .chunk e.encode)

def encode (r : CompositeRecord) : Bytes := Field.encodeAll r.fields

def set (r : CompositeRecord) : Field → Option CompositeRecord
  | ⟨1, p⟩ => do return { r with connective := ← (← p).toInt32? }
  | ⟨2, p⟩ => do
    let part ← Envelope.decodeIn (Field.maxNesting - 1) (← (← p).toChunk?)
    return { r with parts := r.parts ++ [part] }
  | _ => some r

def decode? (bs : Bytes) : Option CompositeRecord := Field.readInto Field.maxNesting set {} bs

/-- The connective, negation when the word names none. -/
def connectiveOrDefault (r : CompositeRecord) : Connective :=
  (Connective.ofCode? r.connective.toInt).getD .not

end CompositeRecord

end TableWire
