/-!
# Tokens of a text

A text is newlines, blanks, words, quoted strings and marks. Comments leave no token: the newline
behind one ends whatever the comment could stand in. The classes of characters are those of the
format, mostly ASCII.
-/

set_option autoImplicit false

namespace WordFields.Toml

inductive Token where
  | newline
  | blank (text : List Char)
  /-- A run of letters, digits, `-` and `_`: a bare key, a number, part of a date. -/
  | word (text : List Char)
  /-- The content of a quoted string; `block` if it was written between three marks. -/
  | quoted (text : String) (block : Bool)
  | equals | dot | comma | colon | plus
  | openBrace | closeBrace | openBracket | closeBracket
  deriving DecidableEq, Repr

/-- How a token is spelled, for the tokens that a date is made of. -/
def Token.spelling : Token → List Char
  | .blank text => text
  | .word text => text
  | .dot => ['.']
  | .colon => [':']
  | .plus => ['+']
  | _ => []

def isBlank (c : Char) : Bool := c == ' ' || c == '\t'

/-- The characters of a bare key. -/
def isBare (c : Char) : Bool :=
  ('a' ≤ c && c ≤ 'z') || ('A' ≤ c && c ≤ 'Z') || ('0' ≤ c && c ≤ '9') || c == '-' || c == '_'

/-- The characters that a comment may hold. -/
def isCommentChar (c : Char) : Bool := c == '\t' || 0x20 ≤ c.toNat

/-- The characters that stand for themselves in a string. -/
def isTextChar (c : Char) : Bool := c == '\t' || (0x20 ≤ c.toNat && c.toNat != 0x7f)

end WordFields.Toml
