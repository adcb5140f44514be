import TokenTree.Token.Basic

/-!
# Walks over token trees

Every walk goes through the tokens in the order of the input, a token before its children. The text
of a list of tokens can be put together in two ways: from the texts of the tokens themselves
(`reconstruct`), or from the leaves, with each group giving only what stands before its first and
after its last child (`expand?`).
-/

namespace TokenTree

namespace Token

variable {β : Type}

mutual

/-- Feeds a token at the given depth and all tokens inside it to `f`. -/
def foldAt (f : β → Nat → Token → β) (depth : Nat) (acc : β) : Token → β
  | leaf k s t => f acc depth (leaf k s t)
  | group k s t ts => foldAllAt f (depth + 1) (f acc depth (group k s t ts)) ts

/-- Feeds the tokens of a list at the given depth and all tokens inside them to `f`. -/
def foldAllAt (f : β → Nat → Token → β) (depth : Nat) (acc : β) : List Token → β
  | [] => acc
  | t :: ts => foldAllAt f depth (foldAt f depth acc t) ts

end

/-- Feeds every token, with its depth, to `f`, a token before its children. -/
def foldTokens (f : β → Nat → Token → β) (acc : β) (tokens : List Token) : β :=
  foldAllAt f 0 acc tokens

/-- Every token with its depth, a token before its children. -/
def visit (tokens : List Token) : List (Nat × Token) :=
  (foldTokens (fun seen depth t => (depth, t) :: seen) [] tokens).reverse

/-- The tokens without children. -/
def flatten (tokens : List Token) : List Token :=
  (foldTokens (fun seen _ t => if t.children.isEmpty then t :: seen else seen) [] tokens).reverse

/-- The malformed regions, at any depth. -/
def walkErrors (tokens : List Token) : List Token :=
  (foldTokens (fun seen _ t => if t.isError then t :: seen else seen) [] tokens).reverse

/-- The number of malformed regions in a token, itself included. -/
def errorCount (t : Token) : Nat :=
  foldAt (fun n _ t => if t.isError then n + 1 else n) 0 0 t

/-- The texts of the tokens, one after the other. -/
def reconstruct (tokens : List Token) : Text := tokens.flatMap text

/-- The part of a group's text before its first child, and the part after its last; none when the
spans of the children do not fit the text. -/
def margins? (span : Span) (lexeme : Lexeme) (first last : Span) : Option (Text × Text) :=
  if first.start < span.start ∨ last.stop < span.start then none
  else do
    let head ← lexeme.slice? 0 (first.start - span.start)
    let tail ← lexeme.slice? (last.stop - span.start) lexeme.length
    return (head, tail)

mutual

/-- Puts the text of a token, put together from its leaves, in reverse before `out`. -/
def expandOnto (out : Text) : Token → Option Text
  | leaf _ _ t => some (t.text.reverseAux out)
  | group _ s t ts =>
    match ts.head?, ts.getLast? with
    | some first, some last =>
      match margins? s t first.span last.span with
      | some (head, tail) => (expandAllOnto (head.reverseAux out) ts).map tail.reverseAux
      | none => none
    | _, _ => some (t.text.reverseAux out)

/-- Puts the texts of tokens, put together from their leaves, in reverse before `out`. -/
def expandAllOnto (out : Text) : List Token → Option Text
  | [] => some out
  | t :: ts =>
    match expandOnto out t with
    | some out => expandAllOnto out ts
    | none => none

end

/-- The text put together from the leaves. A group gives the text before its first child, its
children, and the text after its last child; none when these do not fit its own text. -/
def expand? (tokens : List Token) : Option Text := (expandAllOnto [] tokens).map List.reverse

end Token

end TokenTree
