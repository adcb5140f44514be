import TokenTree.Text.Quoted
import TokenTree.Token.Basic

/-!
# Selectors

A selector is a condition on a single token, which can be evaluated and written down.
-/

namespace TokenTree

/-- A condition on a token. -/
inductive Selector where
  /-- The token has the tag. -/
  | tag (tag : Token.Tag)
  /-- The token has exactly this text. -/
  | text (text : Text)
  /-- The token is a block in such brackets. -/
  | block (delimiter : Delimiter)
  /-- No condition. -/
  | any
  /-- The token is white space. -/
  | whitespace
  /-- One condition or the other holds. -/
  | either (a b : Selector)
  /-- Both conditions hold. -/
  | both (a b : Selector)
  /-- The condition does not hold. -/
  | not (a : Selector)
  /-- A condition of the caller's own. -/
  | custom (name : String) (holds : Token → Bool)

instance : Inhabited Selector := ⟨.any⟩

namespace Selector

/-- The token meets the condition. -/
def holds : Selector → Token → Bool
  | tag k, t => t.tag == k
  | text s, t => t.text == s
  | block d, t => t.delimiter? == some d
  | any, _ => true
  | whitespace, t => t.isWhitespace
  | either a b, t => a.holds t || b.holds t
  | both a b, t => a.holds t && b.holds t
  | not a, t => !a.holds t
  | custom _ f, t => f t

/-- The condition in writing. -/
def description : Selector → String
  | tag k => k.name
  | text s => Text.quoted s
  | block d => "Block(" ++ String.singleton d.opener ++ String.singleton d.closer ++ ")"
  | any => "_"
  | whitespace => "whitespace"
  | either a b => "(" ++ a.description ++ " | " ++ b.description ++ ")"
  | both a b => "(" ++ a.description ++ " & " ++ b.description ++ ")"
  | not a => "!" ++ a.description
  | custom name _ => name

end Selector

end TokenTree
