import TableWire.Except
import TableWire.Filter.Basic
import TableWire.Filter.Lexeme
import TableWire.Bytes.Utf8
/-!
Reading filter texts:

    filter      ::= conjunction (OR conjunction)*
    conjunction ::= negation (AND negation)*
    negation    ::= NOT negation | clause
    clause      ::= column comparison @ parameter flag [flag]

AND binds tighter than OR, and both fold to the left. A column is any word but a keyword. No path of
the filter may hold more than `maxDepth` connectives. `stop` is the offset of the end of the text.
-/

namespace TableWire.Filter

/-- A reader consumes lexemes from the front. -/
abbrev Reader (α : Type) : Type := List Lexeme → Except FilterError (α × List Lexeme)

def expected (stop : Nat) (part : ClausePart) : List Lexeme → FilterError
  | [] => .malformed stop (.expected part none)
  | t :: _ => .malformed t.offset (.expected part (some t.token))

def readColumn (stop : Nat) : Reader String
  | ⟨offset, .word w⟩ :: ts =>
    match Connective.ofText? w with
    | none => .ok (w, ts)
    | some _ => .error (expected stop .column (⟨offset, .word w⟩ :: ts))
  | ts => .error (expected stop .column ts)

def readComparison (stop : Nat) : Reader Comparison
  | ⟨offset, .operator op⟩ :: ts =>
    match Comparison.ofText? op with
    | some c => .ok (c, ts)
    | none => .error (.malformed offset (.unknownComparison op))
  | ts => .error (expected stop .comparison ts)

def readAtSign (stop : Nat) : Reader Unit
  | ⟨_, .atSign⟩ :: ts => .ok ((), ts)
  | ts => .error (expected stop .atSign ts)

def readParameter (stop : Nat) : Reader String
  | ⟨_, .word w⟩ :: ts => .ok (w, ts)
  | ts => .error (expected stop .parameter ts)

def flag? : List Lexeme → Option (Bool × List Lexeme)
  | ⟨_, .word "true"⟩ :: ts => some (true, ts)
  | ⟨_, .word "false"⟩ :: ts => some (false, ts)
  | _ => none

def readFlag (stop : Nat) : Reader Bool := fun ts =>
  match flag? ts with
  | some found => .ok found
  | none => .error (expected stop .flag ts)

def readClause (stop : Nat) : Reader (Filter String) := fun ts => do
  let (column, ts) ← readColumn stop ts
  let (comparison, ts) ← readComparison stop ts
  let ((), ts) ← readAtSign stop ts
  let (operand, ts) ← readParameter stop ts
  let (passIfMissing, ts) ← readFlag stop ts
  match flag? ts with
  | some (latest, ts) =>
    return (.clause { column, comparison, operand, passIfMissing, latestOnly := some latest }, ts)
  | none => return (.clause { column, comparison, operand, passIfMissing }, ts)

/-- A filter that has been read, with what has been counted by then. -/
structure Counted : Type where
  filter : Filter String
  /-- The levels of connectives in the filter. -/
  depth : Nat
  /-- The NOTs that are open. -/
  nots : Nat

/-- Reads a filter behind a number of open NOTs. -/
abbrev CountingReader : Type := Nat → Reader Counted

/-- One level more, for the connective at `offset`. -/
def deepen (offset levels : Nat) : Except FilterError Nat :=
  if maxDepth ≤ levels then .error (.malformed offset .tooDeep) else .ok (levels + 1)

/-- A run of NOTs and their clause. Each NOT is open while its operand is read; no more than
`maxDepth` of them are open at once. -/
def readNegation (stop : Nat) : CountingReader
  | nots, ⟨offset, .word "NOT"⟩ :: ts => do
    let opened ← deepen offset nots
    let (operand, ts) ← readNegation stop opened ts
    let depth ← deepen offset operand.depth
    return (⟨.not operand.filter, depth, operand.nots - 1⟩, ts)
  | nots, ts => do
    let (f, ts) ← readClause stop ts
    return (⟨f, 0, nots⟩, ts)

/-- A reader never hands back more than it was given. -/
def Consumes {α : Type} (p : Reader α) : Prop :=
  ∀ ts a rest, p ts = .ok (a, rest) → rest.length ≤ ts.length

/-- Further operands of a connective, folded to the left onto what has been read. -/
def readChainFrom (k : Connective) (p : CountingReader) (consumes : ∀ nots, Consumes (p nots))
    (left : Counted) (ts : List Lexeme) : Except FilterError (Counted × List Lexeme) :=
  match ts with
  | ⟨offset, .word w⟩ :: rest =>
    if w = k.text then
      match operand : p left.nots rest with
      | .error e => .error e
      | .ok (right, rest') =>
        have : rest'.length ≤ rest.length := consumes _ _ _ _ operand
        match deepen offset (max left.depth right.depth) with
        | .error e => .error e
        | .ok depth =>
          readChainFrom k p consumes ⟨.node k [left.filter, right.filter], depth, right.nots⟩ rest'
    else .ok (left, ts)
  | ts => .ok (left, ts)
termination_by ts.length
decreasing_by exact Nat.lt_succ_of_le this

def readChain (k : Connective) (p : CountingReader) (consumes : ∀ nots, Consumes (p nots)) :
    CountingReader := fun nots ts => do
  let (left, ts) ← p nots ts
  readChainFrom k p consumes left ts

theorem flag?_length {ts rest : List Lexeme} {b : Bool} (h : flag? ts = some (b, rest)) :
    rest.length ≤ ts.length := by
  unfold flag? at h
  split at h
  · cases h
    exact Nat.le_succ _
  · cases h
    exact Nat.le_succ _
  · cases h

theorem consumes_readColumn (stop : Nat) : Consumes (readColumn stop) := by
  intro ts a rest h
  unfold readColumn at h
  split at h
  · split at h
    · cases h
      exact Nat.le_succ _
    · cases h
  · cases h

theorem consumes_readComparison (stop : Nat) : Consumes (readComparison stop) := by
  intro ts a rest h
  unfold readComparison at h
  split at h
  · split at h
    · cases h
      exact Nat.le_succ _
    · cases h
  · cases h

theorem consumes_readAtSign (stop : Nat) : Consumes (readAtSign stop) := by
  intro ts a rest h
  unfold readAtSign at h
  split at h
  · cases h
    exact Nat.le_succ _
  · cases h

theorem consumes_readParameter (stop : Nat) : Consumes (readParameter stop) := by
  intro ts a rest h
  unfold readParameter at h
  split at h
  · cases h
    exact Nat.le_succ _
  · cases h

theorem consumes_readFlag (stop : Nat) : Consumes (readFlag stop) := by
  intro ts a rest h
  unfold readFlag at h
  split at h
  · rename_i found
    cases h
    exact flag?_length found
  · cases h

theorem Consumes.bind {α β : Type} {p : Reader α}
    {f : α × List Lexeme → Except FilterError (β × List Lexeme)} (hp : Consumes p)
    (hf : ∀ a, Consumes fun ts => f (a, ts)) : Consumes fun ts => p ts >>= f := by
  intro ts b rest h
  cases run : p ts with
  | error e => simp [run, Bind.bind, Except.bind] at h
  | ok r =>
    obtain ⟨a, ts'⟩ := r
    simp only [run, Bind.bind, Except.bind] at h
    exact Nat.le_trans (hf a _ _ _ h) (hp _ _ _ run)

theorem consumes_readClause (stop : Nat) : Consumes (readClause stop) := by
  refine (consumes_readColumn stop).bind fun column => ?_
  refine (consumes_readComparison stop).bind fun comparison => ?_
  refine (consumes_readAtSign stop).bind fun _ => ?_
  refine (consumes_readParameter stop).bind fun operand => ?_
  refine (consumes_readFlag stop).bind fun passIfMissing => ?_
  intro ts f rest h
  dsimp only at h
  split at h
  · rename_i found
    cases h
    exact flag?_length found
  · cases h
    exact Nat.le_refl _

theorem consumes_readNegation (stop nots : Nat) : Consumes (readNegation stop nots) := by
  intro ts r rest h
  fun_induction readNegation stop nots ts generalizing r rest with
  | case1 nots offset ts ih =>
    obtain ⟨opened, _, h⟩ := Except.bind_eq_ok.mp h
    obtain ⟨⟨operand, ts'⟩, run, h⟩ := Except.bind_eq_ok.mp h
    obtain ⟨depth, _, h⟩ := Except.bind_eq_ok.mp h
    cases h
    exact Nat.le_succ_of_le (ih opened operand rest run)
  | case2 nots ts _ =>
    obtain ⟨⟨f, ts'⟩, run, h⟩ := Except.bind_eq_ok.mp h
    cases h
    exact consumes_readClause stop _ _ _ run

theorem consumes_readChainFrom (k : Connective) {p : CountingReader}
    (consumes : ∀ nots, Consumes (p nots)) (left : Counted) :
    Consumes (readChainFrom k p consumes left) := by
  intro ts r rest h
  fun_induction readChainFrom k p consumes left ts with
  | case1 => cases h
  | case2 => cases h
  | case3 left offset rest' right rest'' operand shorter depth _ ih =>
    exact Nat.le_trans (ih h) (Nat.le_succ_of_le shorter)
  | case4 =>
    cases h
    exact Nat.le_refl _
  | case5 =>
    cases h
    exact Nat.le_refl _

theorem consumes_readChain (k : Connective) {p : CountingReader}
    (consumes : ∀ nots, Consumes (p nots)) (nots : Nat) :
    Consumes (readChain k p consumes nots) :=
  (consumes nots).bind fun left => consumes_readChainFrom k consumes left

def readConjunction (stop : Nat) : CountingReader :=
  readChain .and (readNegation stop) (consumes_readNegation stop)

theorem consumes_readConjunction (stop nots : Nat) : Consumes (readConjunction stop nots) :=
  consumes_readChain .and (consumes_readNegation stop) nots

def readDisjunction (stop : Nat) : CountingReader :=
  readChain .or (readConjunction stop) (consumes_readConjunction stop)

/-- The filter that a list of lexemes spells from its first to its last. -/
def ofLexemes (stop : Nat) (ts : List Lexeme) : Except FilterError (Filter String) := do
  let (read, rest) ← readDisjunction stop 0 ts
  match rest with
  | [] => return read.filter
  | t :: _ => throw (.malformed t.offset (.trailing t.token))

def parse (source : String) : Except FilterError (Filter String) := do
  ofLexemes (Utf8.length source) (← Lexeme.read source)

end TableWire.Filter
