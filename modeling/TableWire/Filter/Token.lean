/-!
The tokens of filter texts.
-/

namespace TableWire

inductive Token : Type
  | word (text : String)
  | operator (text : String)
  | atSign
  deriving DecidableEq, Repr

def Token.text : Token → String
  | .word w => w
  | .operator op => op
  | .atSign => "@"

namespace Token

def isWordStart (c : Char) : Bool := c.isAlpha || c = '_'

def isWordChar (c : Char) : Bool := c.isAlphanum || c = '_'

def isOperatorChar (c : Char) : Bool := c = '=' || c = '!' || c = '<' || c = '>'

end Token

end TableWire
