import TokenTree.Scan.Step

/-!
# Scanning a buffer

The scanner takes one step after the other until no text is left or it has to wait. What it hands
over is the pieces it cut off, and where it stopped: at the end, or at the start of the piece that
the text to come decides.
-/

namespace TokenTree

/-- A piece of the input. -/
structure Piece where
  kind : PieceKind
  span : Span
  /-- The view of its text. -/
  lexeme : Lexeme

/-- How far the scanner got. -/
structure Scan where
  /-- The pieces cut off, in order. -/
  pieces : List Piece
  /-- What the scanner is in the middle of. -/
  mode : Mode
  /-- Where it stopped. -/
  cursor : Cursor
  /-- The run that all of the remaining text is, if the scanner waits for the end of one. -/
  run : Option Run

namespace Scan

/-- Takes at most `fuel` steps from a position in a buffer whose first byte has offset `base`, after
the pieces of the reverse of `seen`. Positions and spans are exact. A scanner whose offsets stay at
`maxOffset` finds the same in a buffer that ends by there (`Checked.go_eq`). -/
def go (config : Config) (final : Bool) (base : Nat) :
    (fuel : Nat) → (seen : List Piece) → Mode → Cursor → Scan
  | 0, seen, mode, cursor => ⟨seen.reverse, mode, cursor, none⟩
  | fuel + 1, seen, mode, cursor =>
    match step config final mode cursor.rest with
    | .piece kind count =>
      let (view, next) := cursor.cut count
      let piece := ⟨kind, ⟨base + cursor.pos, base + next.pos⟩, .ofView view⟩
      go config final base fuel (piece :: seen) .normal next
    | .enter mode => go config final base fuel seen mode cursor
    | .wait mode run => ⟨seen.reverse, mode, cursor, run⟩
    | .done => ⟨seen.reverse, mode, cursor, none⟩

/-- Scans a buffer whose first byte has offset `base`. Every piece takes at most two steps, one to
enter it and one to cut it off, and the last step finds no text. -/
def ofBuffer (config : Config) (final : Bool) (base : Nat) (mode : Mode) (buffer : Buffer) : Scan :=
  go config final base (2 * buffer.text.length + 1) [] mode (.ofBuffer buffer)

end Scan

end TokenTree
