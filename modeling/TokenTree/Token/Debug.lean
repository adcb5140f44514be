import TokenTree.Text.Quoted
import TokenTree.Token.Basic

/-!
# Token trees on one line

A compact form of token trees for reports: kind and span, then the quoted text of a token without
children, or the children between square brackets.
-/

namespace TokenTree

/-- The name of a kind of bracket. -/
def Delimiter.name : Delimiter → String
  | brace => "Brace"
  | bracket => "Bracket"
  | paren => "Paren"

/-- The name of a quote. -/
def Quote.name : Quote → String
  | single => "Single"
  | double => "Double"

/-- The name of a kind of comment. -/
def CommentKind.name : CommentKind → String
  | line => "Line"
  | block => "Block"

/-- A kind of leaf in the compact form. -/
def LeafKind.debug : LeafKind → String
  | ident => "Ident"
  | whitespace => "Whitespace"
  | symbol => "Symbol"
  | operator => "Operator"
  | integer => "Numeric(Integer)"
  | float => "Numeric(Float)"
  | string q => "String(" ++ q.name ++ ")"
  | comment k => "Comment(" ++ k.name ++ ")"

/-- A kind of error in the compact form. -/
def ErrorKind.debug : ErrorKind → String
  | unclosed d => "UnclosedDelimiter(" ++ d.name ++ ")"
  | stray d => "StrayCloser(" ++ d.name ++ ")"
  | unterminatedComment => "UnterminatedComment"

/-- A kind of group in the compact form. -/
def GroupKind.debug : GroupKind → String
  | block d => "Block(" ++ d.name ++ ")"
  | error e => "Error(" ++ e.debug ++ ")"
  | composite name => "Composite(" ++ name ++ ")"

namespace Token

mutual

/-- Writes a token after `out`. An error without children is written like a leaf. -/
def debugOnto (out : String) : Token → String
  | leaf k s t => out ++ k.debug ++ " @ " ++ toString s ++ " " ++ Text.quoted t.text
  | group (.error e) s t [] =>
    out ++ "Error \x7b kind: " ++ e.debug ++ ", children: [] \x7d @ " ++ toString s ++ " "
      ++ Text.quoted t.text
  | group k s _ ts =>
    (debugAllOnto (out ++ k.debug ++ " @ " ++ toString s ++ " [") "" ts).push ']'

/-- Writes tokens after `out`, each after the separator that is due. -/
def debugAllOnto (out separator : String) : List Token → String
  | [] => out
  | t :: ts => debugAllOnto (debugOnto (out ++ separator) t) ", " ts

end

/-- The tokens between square brackets. -/
def debug (tokens : List Token) : String := (debugAllOnto "[" "" tokens).push ']'

end Token

end TokenTree
