import TokenTree.Pattern.Match
import TokenTree.Session

/-!
# Folding runs of tokens

Matches are first collected as `Fold`s, by position in their list of tokens, and then applied
together, so that no fold moves the tokens of another. Of two folds that overlap the one that starts
first is applied, and of two that start together the one of higher priority.
-/

namespace TokenTree

/-- A run of tokens to be gathered into one. -/
structure Fold where
  /-- The position of the first token. -/
  start : Nat
  /-- The number of tokens. -/
  count : Nat
  /-- The priority among folds that start together. -/
  priority : Int
  /-- The name of the token that takes their place. -/
  name : String

/-- The token that gathers the children under a name; there has to be at least one. -/
def Token.composite? (name : String) (children : List Token) : Option Token :=
  match children.head?, children.getLast? with
  | some first, some last =>
    some (.group (.composite name) (first.span.merge last.span)
      (.join none (children.map Token.lexeme)) children)
  | _, _ => none

namespace Fold

/-- The first fold need not be applied after the second one. -/
def appliedBefore (a b : Fold) : Bool :=
  a.start < b.start || (a.start == b.start && b.priority ≤ a.priority)

/-- Applies folds, in order of their starts, to tokens of which the first stands at position `pos`;
`out` is the tokens before it, in reverse. -/
def applyFrom (out : List Token) (pos : Nat) : List Fold → List Token → List Token
  | [], rest => out.reverseAux rest
  | f :: folds, rest =>
    if f.start < pos then applyFrom out pos folds rest
    else
      let behind := rest.drop (f.start - pos)
      let children := behind.take f.count
      let before := (rest.take (f.start - pos)).reverseAux out
      let out := (Token.composite? f.name children).toList ++ before
      applyFrom out (f.start + children.length) folds (behind.drop f.count)

/-- Applies all folds to the tokens. -/
def apply (folds : List Fold) (tokens : List Token) : List Token :=
  if folds.isEmpty then tokens else applyFrom [] 0 (folds.mergeSort appliedBefore) tokens

/-- Puts a fold before those recorded earlier, unless it is of no token. -/
def record (f : Fold) (seen : List Fold) : List Fold := if f.count = 0 then seen else f :: seen

/-- The folds for the matches of rules in tokens of which the first stands at position `pos`, after
the folds of the reverse of `seen`. The first `covered` tokens belong to a match before them. -/
def collect (rules : List Rule) (seen : List Fold) (pos covered : Nat) : List Token → List Fold
  | [] => seen.reverse
  | t :: ts =>
    match covered with
    | covered + 1 => collect rules seen (pos + 1) covered ts
    | 0 =>
      match Rule.firstMatch rules (t :: ts) with
      | some (r, count) =>
        let fold := ⟨pos, count, r.pattern.priority, r.pattern.name⟩
        collect rules (record fold seen) (pos + 1) (count - 1) ts
      | none => collect rules seen (pos + 1) 0 ts

/-- Gathers every match of the rules in one list of tokens. -/
def foldTokens (rules : List Rule) (tokens : List Token) : List Token :=
  apply (collect rules [] 0 0 tokens) tokens

end Fold

mutual

/-- The token with the patterns applied inside it, if it is a block. -/
def Token.foldInside (rules : List Rule) : Token → Token
  | .group (.block d) span lexeme children =>
    .group (.block d) span lexeme (Fold.foldTokens rules (Token.foldInsideAll rules [] children))
  | .group kind span lexeme children => .group kind span lexeme children
  | .leaf kind span lexeme => .leaf kind span lexeme

/-- The reverse of `out`, then the tokens with the patterns applied inside them. -/
def Token.foldInsideAll (rules : List Rule) (out : List Token) : List Token → List Token
  | [] => out.reverse
  | t :: ts => Token.foldInsideAll rules (Token.foldInside rules t :: out) ts

end

/-- Applies patterns at every depth: inside the blocks first, then to the list itself. What is
inside malformed regions and composites stays as it is. -/
def PatternSet.apply (s : PatternSet) (tokens : List Token) : List Token :=
  Fold.foldTokens s.rules (Token.foldInsideAll s.rules [] tokens)

/-- The tokens of a complete input, with patterns applied to them. -/
def lexWith (config : Config) (s : PatternSet) (source : Text) : List Token :=
  s.apply (lex config source)

end TokenTree
