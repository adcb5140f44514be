import TokenTree.Segment.Basic

/-!
# Looking ahead

A `Lookahead` answers what the next segments are without moving on. The segments looked at so far
are kept in front of a segmenter that has gone past them; the position is that of the first one
kept.
-/

namespace TokenTree

/-- A position in a text with the segments after it that were already looked at. -/
structure Lookahead where
  /-- The segments after the position, as far as they were looked at. -/
  ahead : List Segment
  /-- Where the segments not yet looked at start. -/
  source : Segmenter

namespace Lookahead

/-- A position with nothing looked at. -/
def ofSegmenter (source : Segmenter) : Lookahead := ⟨[], source⟩

/-- Looks at `n` more segments, or at all there are. -/
def fill (l : Lookahead) : Nat → Lookahead
  | 0 => l
  | n + 1 =>
    match l.source.next? with
    | none => l
    | some (segment, source) => fill ⟨l.ahead ++ [segment], source⟩ n

/-- The segment after `k` others, and the lookahead that has seen it. The segments on the way are
kept even when there are too few. -/
def peek (l : Lookahead) (k : Nat) : Option Segment × Lookahead :=
  let l := l.fill (k + 1 - l.ahead.length)
  (l.ahead[k]?, l)

/-- The number of bytes before the next segment. -/
def pos (l : Lookahead) : Nat :=
  match l.ahead with
  | [] => l.source.pos
  | segment :: _ => segment.start - l.source.base

/-- Continues at byte `pos`, with nothing looked at; none when that is not between characters. -/
def seek? (l : Lookahead) (pos : Nat) : Option Lookahead := (l.source.seek? pos).map ofSegmenter

/-- The segment ends where the text does, and could be longer in a longer text. -/
def mayExtend (l : Lookahead) (segment : Segment) : Bool := l.source.mayExtend segment

end Lookahead

end TokenTree
