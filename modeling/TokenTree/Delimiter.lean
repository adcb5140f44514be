/-!
# Delimiters and quotes

The characters that come in pairs: the three kinds of bracket, which nest, and the two quotes, which
do not.
-/

namespace TokenTree

/-- A kind of bracket. -/
inductive Delimiter where
  | brace
  | bracket
  | paren
  deriving DecidableEq, Repr

namespace Delimiter

/-- The character that opens a block. -/
def opener : Delimiter → Char
  | brace => '{'
  | bracket => '['
  | paren => '('

/-- The character that closes a block. -/
def closer : Delimiter → Char
  | brace => '}'
  | bracket => ']'
  | paren => ')'

/-- The kind of bracket that a character opens. -/
def ofOpener? : Char → Option Delimiter
  | '{' => some brace
  | '[' => some bracket
  | '(' => some paren
  | _ => none

end Delimiter

/-- The character at both ends of a string. -/
inductive Quote where
  | single
  | double
  deriving DecidableEq, Repr

/-- The character itself. -/
def Quote.char : Quote → Char
  | single => '\''
  | double => '"'

end TokenTree
