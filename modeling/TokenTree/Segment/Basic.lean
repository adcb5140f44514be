import TokenTree.Segment.Class
import TokenTree.Span
import TokenTree.Text.Slice

/-!
# Segments

A text falls into segments: single characters, line breaks and maximal runs. The first segment of a
text (`munch`) depends on nothing before it, so segmentation can start at any position, and its end
is settled unless it reaches the end of the text (`mayExtend`).

A `Segmenter` is a position in a text from which segments are taken one after the other. Starts are
absolute: they count from `base`, and stay at the greatest offset when they would go beyond it.
-/

namespace TokenTree

/-- One segment: its class, where it starts and its length in bytes. -/
structure Segment where
  /-- The class of its characters. -/
  cls : CharClass
  /-- The absolute offset of its first byte. -/
  start : Nat
  /-- The number of its bytes. -/
  length : Nat
  deriving DecidableEq, Repr

namespace Segment

/-- The absolute offset after the last byte. -/
def stop (s : Segment) : Nat := s.start + s.length

/-- The characters of the segment in `t`, whose first byte has offset `base`; none when the segment
does not fit the text. -/
def text? (s : Segment) (t : Text) (base : Nat) : Option Text :=
  if base ≤ s.start then t.slice? (s.start - base) (s.start - base + s.length) else none

end Segment

namespace SymbolSet

variable (symbols : SymbolSet)

/-- The first segment of a text: its class, its characters and what follows them. -/
def munch : Text → Option (CharClass × Text × Text)
  | [] => none
  | c :: r =>
    match symbols.classOf c with
    | .run k =>
      let same (d : Char) : Bool := symbols.classOf d = .run k
      some (.run k, c :: r.takeWhile same, r.dropWhile same)
    | .newline =>
      match c, r with
      | '\r', '\n' :: r => some (.newline, ['\r', '\n'], r)
      | _, _ => some (.newline, [c], r)
    | cls => some (cls, [c], r)

/-- A segment with these characters, after which the text ends, could be longer in a longer text: it
is a run, or a carriage return that a line feed would join. -/
def mayExtend (cls : CharClass) (piece after : Text) : Bool :=
  after.isEmpty && (cls.isRun || piece == ['\r'])

theorem munch_append {t piece after : Text} {cls : CharClass}
    (h : symbols.munch t = some (cls, piece, after)) : t = piece ++ after := by
  cases t with
  | nil => cases h
  | cons c r =>
    simp only [munch] at h
    split at h
    · cases h
      rw [List.cons_append, List.takeWhile_append_dropWhile]
    · split at h <;> cases h <;> rfl
    · cases h
      rfl

theorem munch_ne_nil {t piece after : Text} {cls : CharClass}
    (h : symbols.munch t = some (cls, piece, after)) : piece ≠ [] := by
  cases t with
  | nil => cases h
  | cons c r =>
    simp only [munch] at h
    split at h
    · cases h
      simp
    · split at h <;> cases h <;> simp
    · cases h
      simp

theorem munch_length_lt {t piece after : Text} {cls : CharClass}
    (h : symbols.munch t = some (cls, piece, after)) : after.length < t.length := by
  have := List.length_pos_iff.2 (munch_ne_nil symbols h)
  rw [munch_append symbols h, List.length_append]
  omega

end SymbolSet

/-- A position in a text, from which segments are taken. -/
structure Segmenter where
  /-- The characters that are symbols. -/
  symbols : SymbolSet
  /-- The whole text. -/
  text : Text
  /-- The absolute offset of the first byte of the text. -/
  base : Nat
  /-- The number of bytes before the position. -/
  pos : Nat
  /-- The text from the position on. -/
  rest : Text

namespace Segmenter

/-- The start of a text whose first byte has absolute offset `base`. -/
def ofText (symbols : SymbolSet) (base : Nat) (text : Text) : Segmenter :=
  ⟨symbols, text, base, 0, text⟩

/-- The absolute offset of byte `pos` of a text that starts at `base`. -/
def offset (base pos : Nat) : Nat := min (base + pos) maxOffset

theorem offset_eq {base pos : Nat} (h : base + pos ≤ maxOffset) : offset base pos = base + pos :=
  Nat.min_eq_left h

theorem offset_of_le {base pos : Nat} (h : maxOffset ≤ base + pos) : offset base pos = maxOffset :=
  Nat.min_eq_right h

/-- The same text, from byte `pos` on; none when that is not between characters. -/
def seek? (s : Segmenter) (pos : Nat) : Option Segmenter :=
  (s.text.dropBytes? pos).map fun rest => { s with pos := pos, rest := rest }

/-- The next segment and the position after it; none at the end of the text. -/
def next? (s : Segmenter) : Option (Segment × Segmenter) :=
  (s.symbols.munch s.rest).map fun (cls, piece, after) =>
    let length := Text.size piece
    (⟨cls, offset s.base s.pos, length⟩, { s with pos := s.pos + length, rest := after })

/-- The segment ends where the text does, and could be longer in a longer text. -/
def mayExtend (s : Segmenter) (segment : Segment) : Bool :=
  segment.stop - s.base == Text.size s.text &&
    (segment.cls.isRun || (segment.cls == .newline && s.text.getLast? == some '\r'))

theorem next?_length_lt {s s' : Segmenter} {segment : Segment}
    (h : s.next? = some (segment, s')) : s'.rest.length < s.rest.length := by
  obtain ⟨⟨cls, piece, after⟩, hm, h⟩ := Option.map_eq_some_iff.1 h
  cases h
  exact s.symbols.munch_length_lt hm

/-- The reverse of `seen`, then every segment from the position on. -/
def collect (seen : List Segment) (s : Segmenter) : List Segment :=
  match _h : s.next? with
  | none => seen.reverse
  | some (segment, s') => collect (segment :: seen) s'
termination_by s.rest.length
decreasing_by exact next?_length_lt _h

/-- Every segment from the position on. -/
def toList (s : Segmenter) : List Segment := collect [] s

end Segmenter

/-- The segments of a text whose first byte has absolute offset `base`. -/
def SymbolSet.segments (symbols : SymbolSet) (base : Nat) (text : Text) : List Segment :=
  (Segmenter.ofText symbols base text).toList

/-- The segment that starts at byte `pos`, or none at the end of the text. The position must be
between characters: there is no answer inside a character or beyond the end. -/
def SymbolSet.segmentAt? (symbols : SymbolSet) (base : Nat) (text : Text) (pos : Nat) :
    Option (Option Segment) :=
  ((Segmenter.ofText symbols base text).seek? pos).map fun s => s.next?.map Prod.fst

end TokenTree
