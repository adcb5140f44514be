import TokenTree.Delimiter
import TokenTree.Lexeme
import TokenTree.Span

/-!
# Tokens

A token is a leaf, such as a number or a comment, or a group with children: a block between
brackets, a malformed region, or a run of tokens that a pattern gathered. Each has its span in the
input and its text as a lexeme. Two tokens are the same (`==`) when kinds, spans, texts and children
agree, whatever buffers their texts are kept in.
-/

namespace TokenTree

/-- How a comment ends. -/
inductive CommentKind where
  /-- Before the next line break. -/
  | line
  /-- After its closing delimiter. -/
  | block
  deriving DecidableEq, Repr

/-- The kind of a token without children. -/
inductive LeafKind where
  /-- A run of text, such as a name. -/
  | ident
  /-- A run of white space, or one line break. -/
  | whitespace
  /-- One symbol, or an atom with no other role where it stands. -/
  | symbol
  /-- A configured operator. -/
  | operator
  /-- Digits. -/
  | integer
  /-- Digits with a decimal point among or before them. -/
  | float
  /-- A string, with its quotes and escapes as written. -/
  | string (quote : Quote)
  /-- A comment, with its delimiters. -/
  | comment (kind : CommentKind)
  deriving DecidableEq, Repr

/-- What makes a region malformed. -/
inductive ErrorKind where
  /-- An opening delimiter without its closer. -/
  | unclosed (delimiter : Delimiter)
  /-- A closing delimiter inside no block of its kind. -/
  | stray (delimiter : Delimiter)
  /-- A block comment without its closing delimiter. -/
  | unterminatedComment
  deriving DecidableEq, Repr

/-- The wording of the error. -/
def ErrorKind.message : ErrorKind → String
  | unclosed d => "unclosed delimiter `" ++ String.singleton d.opener ++ "`"
  | stray d => "unexpected closing delimiter `" ++ String.singleton d.closer ++ "`"
  | unterminatedComment => "unterminated block comment"

/-- The kind of a token that may have children. -/
inductive GroupKind where
  /-- A pair of brackets with its contents. -/
  | block (delimiter : Delimiter)
  /-- A malformed region, with what was recognised inside it. -/
  | error (kind : ErrorKind)
  /-- A run of tokens gathered by the pattern of that name. -/
  | composite (name : String)
  deriving DecidableEq, Repr

/-- A token. -/
inductive Token where
  /-- A token without children. -/
  | leaf (kind : LeafKind) (span : Span) (lexeme : Lexeme)
  /-- A token with the tokens inside it. -/
  | group (kind : GroupKind) (span : Span) (lexeme : Lexeme) (children : List Token)

instance : Inhabited Token := ⟨.leaf .ident .zero (.copied [])⟩

namespace Token

/-- The kind of a token without what else it says. -/
inductive Tag where
  | ident
  | whitespace
  | symbol
  | operator
  | integer
  | float
  | string
  | comment
  | block
  | error
  | composite
  deriving DecidableEq, Repr

namespace Tag

/-- The place of the tag in the order of tags. -/
def code : Tag → Nat
  | ident => 0
  | whitespace => 1
  | symbol => 2
  | operator => 3
  | integer => 4
  | float => 5
  | string => 6
  | comment => 7
  | block => 8
  | error => 9
  | composite => 10

/-- The name of the tag, as reports give it. -/
def name : Tag → String
  | ident => "Ident"
  | whitespace => "Whitespace"
  | symbol => "Symbol"
  | operator => "Operator"
  | integer => "Integer"
  | float => "Float"
  | string => "String"
  | comment => "Comment"
  | block => "Block"
  | error => "Error"
  | composite => "Composite"

instance : Ord Tag := ⟨fun a b => compare a.code b.code⟩

end Tag

/-- Where the token stands in the input. -/
def span : Token → Span
  | leaf _ span _ => span
  | group _ span _ _ => span

/-- The view of the token's text. -/
def lexeme : Token → Lexeme
  | leaf _ _ lexeme => lexeme
  | group _ _ lexeme _ => lexeme

/-- The token's text. -/
def text (t : Token) : Text := t.lexeme.text

/-- The tokens inside the token. -/
def children : Token → List Token
  | leaf .. => []
  | group _ _ _ children => children

/-- The token's tag. -/
def tag : Token → Tag
  | leaf .ident .. => .ident
  | leaf .whitespace .. => .whitespace
  | leaf .symbol .. => .symbol
  | leaf .operator .. => .operator
  | leaf .integer .. => .integer
  | leaf .float .. => .float
  | leaf (.string _) .. => .string
  | leaf (.comment _) .. => .comment
  | group (.block _) .. => .block
  | group (.error _) .. => .error
  | group (.composite _) .. => .composite

/-- The token is white space. -/
def isWhitespace : Token → Bool
  | leaf .whitespace .. => true
  | _ => false

/-- The token is a line break. -/
def isNewline (t : Token) : Bool :=
  t.isWhitespace && [['\n'], ['\r'], ['\r', '\n']].contains t.text

/-- The token is a malformed region. -/
def isError : Token → Bool
  | group (.error _) .. => true
  | _ => false

/-- The kind of bracket around a block. -/
def delimiter? : Token → Option Delimiter
  | group (.block d) .. => some d
  | _ => none

/-- The text without its first and last byte, if these are characters. -/
def unwrapped? (t : Token) : Option Text := t.lexeme.slice? 1 (t.lexeme.length - 1)

/-- The text between the brackets of a block. -/
def innerText? (t : Token) : Option Text :=
  match t with
  | group (.block _) .. => t.unwrapped?
  | _ => none

/-- The text between the quotes of a string, with its escapes as written. -/
def stringValue? (t : Token) : Option Text :=
  match t with
  | leaf (.string _) .. => t.unwrapped?
  | _ => none

/-- What is wrong with a malformed region. -/
def errorMessage? : Token → Option String
  | group (.error e) .. => some e.message
  | _ => none

/-! ## Sameness -/

mutual

/-- The tokens agree in kind, span, text and children. -/
def same : Token → Token → Bool
  | leaf k s t, leaf k' s' t' => k == k' && s == s' && t.sameText t'
  | group k s t ts, group k' s' t' ts' =>
    k == k' && s == s' && t.sameText t' && sameAll ts ts'
  | _, _ => false

/-- The lists are of the same tokens in the same order. -/
def sameAll : List Token → List Token → Bool
  | [], [] => true
  | t :: ts, t' :: ts' => same t t' && sameAll ts ts'
  | _, _ => false

end

mutual

theorem same_refl : (t : Token) → same t t = true
  | leaf .. => by simp [same, Lexeme.sameText_iff]
  | group _ _ _ ts => by simp [same, Lexeme.sameText_iff, sameAll_refl ts]

theorem sameAll_refl : (ts : List Token) → sameAll ts ts = true
  | [] => by simp [sameAll]
  | t :: ts => by simp [sameAll, same_refl t, sameAll_refl ts]

end

/-- A token is the same as itself without a look at its parts. -/
instance : BEq Token :=
  ⟨fun a b => withPtrEq a b (fun _ => same a b) fun h => h ▸ same_refl a⟩

end Token

end TokenTree
