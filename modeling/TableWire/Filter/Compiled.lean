import TableWire.Event
import TableWire.Filter.Binding
import TableWire.Filter.Grammar
import TableWire.Record.Filter
import TableWire.Value.Wire
/-!
Filters compiled to records. Parts are compiled on their own and enter the record of their node as
opaque bytes.
-/

namespace TableWire

structure Compiled : Type where
  kind : RecordKind
  bytes : Bytes
  deriving DecidableEq, Repr

namespace Compiled

def envelope (c : Compiled) : Envelope := ⟨Int32.ofNat c.kind.code, c.bytes⟩

/-- The record in its envelope, as a request carries it. -/
def message (c : Compiled) : Bytes := c.envelope.encode

end Compiled

namespace Filter

def encodeClause (c : Clause Value) : Except CompileError Compiled := do
  let operand ← c.operand.encode.mapError (.operand c.column)
  let record : SingleRecord := {
    comparison := Int32.ofNat c.comparison.code
    column := c.column
    operand
    passIfMissing := c.passIfMissing
    latestOnly := c.latestOnly }
  return ⟨.single, record.encode⟩

mutual

/-- Compiles a filter that stands below `depth` connectives. -/
def encodeAt (depth : Nat) : Filter Value → Except CompileError Compiled
  | .clause c => encodeClause c
  | .node k fs => do
    checkDepth (depth + 1)
    let parts ← encodeAllAt (depth + 1) fs
    let record : CompositeRecord := { connective := Int32.ofNat k.code, parts }
    return ⟨.composite, record.encode⟩

def encodeAllAt (depth : Nat) : List (Filter Value) → Except CompileError (List Envelope)
  | [] => return []
  | f :: fs => return (← encodeAt depth f).envelope :: (← encodeAllAt depth fs)

end

def encode (f : Filter Value) : Except CompileError Compiled := encodeAt 0 f

def compile (f : Filter String) (b : Bindings) : Traced CompileError Compiled := do
  let resolved ← f.resolve b
  let compiled ← resolved.encode
  .report (.compiled compiled.kind compiled.bytes.length)
  return compiled

theorem compile_outcome (f : Filter String) (b : Bindings) :
    (f.compile b).outcome = f.resolve b >>= encode := by
  simp [compile]

/-- The message of the filter that a text spells. -/
def makeMessage (source : String) (b : Bindings) : Traced Error Bytes := do
  let f ← (parse source).mapError Error.filter
  let compiled ← (f.compile b).mapError Error.compile
  return compiled.message

end Filter

end TableWire
