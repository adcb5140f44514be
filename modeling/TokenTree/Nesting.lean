import TokenTree.Scan.Run

/-!
# Nesting

Pieces become a token tree. Each opening bracket opens a frame, which gathers the tokens up to its
closing bracket and is then a block. Brackets that do not match are recovered from: a closing
bracket closes the innermost open block of its own kind, and the blocks left open inside that one
are malformed, as are those open at the end of the input; a closing bracket of a kind that is not
open is malformed by itself.
-/

namespace TokenTree

/-- An open block. -/
structure Frame where
  delimiter : Delimiter
  /-- The offset of the opening bracket. -/
  start : Nat
  /-- The view of the opening bracket. -/
  opener : Lexeme
  /-- The tokens inside, the last one first. -/
  children : List Token

namespace Frame

/-- The frame with one more token inside. -/
def add (f : Frame) (t : Token) : Frame := { f with children := t :: f.children }

/-- The frame with one more token inside, if there is one. -/
def addIfSome (f : Frame) (t? : Option Token) : Frame :=
  match t? with
  | some t => f.add t
  | none => f

/-- The block that the closing bracket makes of the frame. -/
def close (f : Frame) (closer : Lexeme) (stop : Nat) : Token :=
  let children := f.children.reverse
  .group (.block f.delimiter) ⟨f.start, stop⟩
    (.join none (f.opener :: children.map Token.lexeme ++ [closer])) children

/-- The malformed region that is left of the frame without a closing bracket. -/
def giveUp (f : Frame) : Token :=
  let children := f.children.reverse
  let stop :=
    match f.children with
    | [] => f.start + 1
    | last :: _ => last.span.stop
  .group (.error (.unclosed f.delimiter)) ⟨f.start, stop⟩
    (.join none (f.opener :: children.map Token.lexeme)) children

end Frame

/-- A token tree under construction. -/
structure Nest where
  /-- The open blocks, the innermost first. -/
  frames : List Frame
  /-- The tokens outside of all blocks, the last one first. -/
  tokens : List Token

namespace Nest

/-- Puts a token into the innermost open block. -/
def add (n : Nest) (t : Token) : Nest :=
  match n.frames with
  | [] => { n with tokens := t :: n.tokens }
  | f :: fs => { n with frames := f.add t :: fs }

/-- Gives up open blocks from the innermost on, up to one that `stop` picks. The blocks given up go
into the one around them, after the token `inner`. -/
def unwind (stop : Frame → Bool) (tokens : List Token) : List Frame → Option Token → Nest
  | [], inner => ⟨[], inner.toList ++ tokens⟩
  | f :: fs, inner =>
    let f := f.addIfSome inner
    if stop f then ⟨f :: fs, tokens⟩ else unwind stop tokens fs (some f.giveUp)

/-- Closes the innermost open block of the kind of the closing bracket. -/
def close (n : Nest) (d : Delimiter) (span : Span) (closer : Lexeme) : Nest :=
  if n.frames.any (·.delimiter = d) then
    let n := unwind (·.delimiter = d) n.tokens n.frames none
    match n.frames with
    | [] => n
    | f :: fs => add { n with frames := fs } (f.close closer span.stop)
  else
    n.add (.group (.error (.stray d)) span closer [])

/-- Takes in the next piece. -/
def push (n : Nest) (p : Piece) : Nest :=
  match p.kind with
  | .leaf kind => n.add (.leaf kind p.span p.lexeme)
  | .unterminated => n.add (.group (.error .unterminatedComment) p.span p.lexeme [])
  | .opener d => { n with frames := ⟨d, p.span.start, p.lexeme, []⟩ :: n.frames }
  | .closer d => n.close d p.span p.lexeme

/-- Gives up all open blocks. -/
def finish (n : Nest) : Nest := unwind (fun _ => false) n.tokens n.frames none

end Nest

/-- The token tree of a whole input held in a buffer. -/
def lexBuffer (config : Config) (buffer : Buffer) : List Token :=
  let scan := Scan.ofBuffer config true 0 .normal buffer
  (scan.pieces.foldl Nest.push ⟨[], []⟩).finish.tokens.reverse

/-- The token tree of a whole input. All its lexemes view one buffer, at their spans. -/
def lex (config : Config) (source : Text) : List Token := lexBuffer config ⟨some 0, source⟩

end TokenTree
