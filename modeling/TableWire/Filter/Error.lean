import TableWire.Buffer.Error
import TableWire.Filter.Symbol
import TableWire.Filter.Token
/-!
Why a filter text cannot be read, a filter cannot be built, or a filter cannot be compiled.
-/

namespace TableWire

/-- The parts of a clause, as a reader of filter texts calls them. -/
inductive ClausePart : Type
  | column
  | comparison
  | atSign
  | parameter
  | flag
  deriving DecidableEq, Repr

def ClausePart.text : ClausePart → String
  | .column => "column name"
  | .comparison => "comparator"
  | .atSign => "'@'"
  | .parameter => "parameter name"
  | .flag => "'true' or 'false'"

/-- The greatest number of connectives on a path from the root of a filter. -/
def maxDepth : Nat := 100

/-- What is wrong with a filter text at one place. -/
inductive Flaw : Type
  | unexpectedCharacter (c : Char)
  | unknownComparison (text : String)
  | expected (part : ClausePart) (found : Option Token)
  | trailing (found : Token)
  | tooDeep
  deriving DecidableEq, Repr

def Flaw.message : Flaw → String
  | .unexpectedCharacter c => s!"unexpected character '{c}'"
  | .unknownComparison text => s!"unknown comparator '{text}'"
  | .expected part (some found) => s!"expected {part.text}, found '{found.text}'"
  | .expected part none => s!"expected {part.text}, found end of input"
  | .trailing found => s!"unexpected trailing input '{found.text}'"
  | .tooDeep => s!"filter nests deeper than {maxDepth} levels"

inductive FilterError : Type
  | malformed (offset : Nat) (flaw : Flaw)
  | unsupportedComparison (text : String)
  | unsupportedConnective (text : String)
  | tooDeep
  | invalidArity (connective : Connective) (parts : Nat)
  deriving DecidableEq, Repr

def FilterError.message : FilterError → String
  | .malformed offset flaw => s!"syntax error at offset {offset}: {flaw.message}"
  | .unsupportedComparison text => s!"unsupported comparator '{text}'"
  | .unsupportedConnective text => s!"unsupported combinator '{text}'"
  | .tooDeep => s!"filter nests deeper than {maxDepth} levels"
  | .invalidArity connective parts =>
    s!"invalid arity for {connective.text}: expected {connective.arityText}, got {parts}"

/-- The comparison of a symbol, which has to be one of the six. -/
def Comparison.ofSymbol (text : String) : Except FilterError Comparison :=
  match ofText? text with
  | some c => .ok c
  | none => .error (.unsupportedComparison text)

/-- The connective of a name, which has to be one of the three. -/
def Connective.ofSymbol (text : String) : Except FilterError Connective :=
  match ofText? text with
  | some c => .ok c
  | none => .error (.unsupportedConnective text)

inductive CompileError : Type
  | missingParameter (name : String)
  | operand (name : String) (cause : BufferError)
  | filter (cause : FilterError)
  deriving DecidableEq, Repr

def CompileError.message : CompileError → String
  | .missingParameter name => s!"missing parameter '@{name}'"
  | .operand name cause => s!"operand '{name}': {cause.message}"
  | .filter cause => cause.message

/-- Any failure, with the part of the library it comes from. -/
inductive Error : Type
  | buffer (cause : BufferError)
  | filter (cause : FilterError)
  | compile (cause : CompileError)
  deriving DecidableEq, Repr

def Error.message : Error → String
  | .buffer cause => s!"plainbuffer: {cause.message}"
  | .filter cause => s!"filter: {cause.message}"
  | .compile cause => s!"compile: {cause.message}"

end TableWire
