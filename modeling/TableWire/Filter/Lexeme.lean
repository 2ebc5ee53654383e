import TableWire.Filter.Error
import TableWire.Text.Blank
/-!
Tokens in place: the byte offset of each token of a filter text. A word or an operator is a longest
run of its characters; blanks separate and are dropped.
-/

namespace TableWire

structure Lexeme : Type where
  offset : Nat
  token : Token
  deriving DecidableEq, Repr

namespace Lexeme

open Token

/-- The tokens of a text whose first character stands at `offset`. -/
def readFrom (offset : Nat) : List Char → Except FilterError (List Lexeme)
  | [] => .ok []
  | c :: cs =>
    if isBlank c then readFrom (offset + c.utf8Size) cs
    else if isWordStart c then
      let tail := cs.takeWhile isWordChar
      have : (cs.dropWhile isWordChar).length ≤ cs.length := (List.dropWhile_sublist _).length_le
      (⟨offset, .word (String.ofList (c :: tail))⟩ :: ·) <$>
        readFrom (offset + 1 + tail.length) (cs.dropWhile isWordChar)
    else if isOperatorChar c then
      let tail := cs.takeWhile isOperatorChar
      have : (cs.dropWhile isOperatorChar).length ≤ cs.length :=
        (List.dropWhile_sublist _).length_le
      (⟨offset, .operator (String.ofList (c :: tail))⟩ :: ·) <$>
        readFrom (offset + 1 + tail.length) (cs.dropWhile isOperatorChar)
    else if c = '@' then (⟨offset, .atSign⟩ :: ·) <$> readFrom (offset + 1) cs
    else .error (.malformed offset (.unexpectedCharacter c))
termination_by cs => cs.length

def read (source : String) : Except FilterError (List Lexeme) := readFrom 0 source.toList

end Lexeme

end TableWire
