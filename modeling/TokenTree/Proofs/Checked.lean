import TokenTree.Proofs.Bytes
import TokenTree.Session

/-!
# Scanning with checked accesses

`Scan.go` goes through a buffer with a cursor that cannot leave it. Here the same is done with plain
byte offsets. A text is cut at an offset, bytes are read from an offset on, a lexeme is made of two
offsets, an offset is taken from another one, a list is read at an index: each of these is a check
that fails when what is asked for is not there, and the first `Failure` ends the run.

An offset of the input stays at `maxOffset` when it would go beyond. The segments that the scanner
looks at have such offsets, and it goes on where they say, so that in an input of more than
`maxOffset` bytes it may cut off what it cut off before, without end.

The steps look for what `step` looks for, but they look at segments by their offsets and search for
the ends of strings and comments byte by byte, from wherever the search before came to.
-/

namespace TokenTree

namespace Checked

/-- The check that failed. -/
inductive Failure where
  /-- A text is cut inside a character or beyond its end. -/
  | cut
  /-- Bytes beyond the end of a text are read. -/
  | bytes
  /-- A lexeme is made of a range that does not lie between characters. -/
  | range (error : Lexeme.RangeError)
  /-- A list is read at an index at which nothing stands. -/
  | index
  /-- An offset is subtracted from a smaller one. -/
  | underflow
  /-- An offset is beyond the greatest one. -/
  | overflow
  /-- The steps do not come to an end. -/
  | endless
  deriving DecidableEq

/-! ## Accesses -/

/-- The text from byte `pos` on. -/
def cut (t : Text) (pos : Nat) : Except Failure Text :=
  match t.dropBytes? pos with
  | some rest => .ok rest
  | none => .error .cut

/-- The bytes of the text from byte `pos` on. -/
def bytesFrom (t : Text) (pos : Nat) : Except Failure (List UInt8) :=
  if pos ≤ Text.size t then .ok ((Text.bytes t).drop pos) else .error .bytes

/-- The byte of the text at `pos`. -/
def byteAt (t : Text) (pos : Nat) : Except Failure UInt8 :=
  match (Text.bytes t)[pos]? with
  | some b => .ok b
  | none => .error .bytes

/-- The lexeme of the bytes from `start` up to `stop`. -/
def lexeme (buffer : Buffer) (start stop : Nat) : Except Failure Lexeme :=
  match Lexeme.ofRange buffer start stop with
  | .ok l => .ok l
  | .error e => .error (.range e)

/-- The item at the index. -/
def itemAt {α : Type} (items : List α) (index : Nat) : Except Failure α :=
  match items[index]? with
  | some item => .ok item
  | none => .error .index

/-- The difference of two offsets. -/
def minus (a b : Nat) : Except Failure Nat := if b ≤ a then .ok (a - b) else .error .underflow

/-- The sum of two offsets. -/
def plus (a b : Nat) : Except Failure Nat :=
  if a + b ≤ maxOffset then .ok (a + b) else .error .overflow

/-! ## Segments -/

/-- What the scanner makes of the text at its position. -/
inductive Move where
  /-- The bytes from `start` up to `stop` are a piece. -/
  | piece (kind : PieceKind) (start stop : Nat)
  /-- A string or a comment starts here. -/
  | enter (mode : Mode)
  /-- More text is needed; it may lengthen the run that all of the text at hand is. -/
  | wait (mode : Mode) (run : Option Run)
  /-- There is no text left. -/
  | done
  deriving DecidableEq

/-- Where the digits behind a decimal point end. -/
inductive Fraction where
  /-- At that byte. -/
  | digits (stop : Nat)
  /-- The text to come decides. -/
  | undecided
  /-- There is no digit. -/
  | absent

section

variable (symbols : SymbolSet) (final : Bool) (base : Nat) (text : Text)

/-- The segment that starts at byte `pos`. Neither its start nor its length goes beyond the greatest
offset. -/
def segmentAt (pos : Nat) : Except Failure (Option Segment) :=
  match symbols.segmentAt? base text pos with
  | some segment? =>
    .ok (segment?.map fun segment =>
      { segment with length := Segmenter.offset 0 segment.length })
  | none => .error .cut

/-- The segment after `k` others, the first of which starts at byte `pos`. -/
def peek (pos : Nat) : (k : Nat) → Except Failure (Option Segment)
  | 0 => segmentAt symbols base text pos
  | k + 1 => do
    match ← segmentAt symbols base text pos with
    | none => return none
    | some segment => peek (pos + segment.length) k

/-- The bytes of the text that the segment is. -/
def range (segment : Segment) : Except Failure (Nat × Nat) := do
  let start ← minus segment.start base
  return (start, start + segment.length)

/-- More text may follow, and could make the segment longer. -/
def mayExtend (segment : Segment) : Except Failure Bool := do
  if final then return false
  let stop ← plus segment.start segment.length
  let _ ← minus stop base
  return (Segmenter.ofText symbols base text).mayExtend segment

/-- The digits that the segment after `k` others is, if it is one of digits. -/
def fraction (pos k : Nat) : Except Failure Fraction := do
  match ← peek symbols base text pos k with
  | some segment =>
    if segment.cls = .run .digits then
      if ← mayExtend symbols final base text segment then return .undecided
      let (_, stop) ← range base segment
      return .digits stop
    else
      return .absent
  | none => return if final then .absent else .undecided

/-- A number whose first digits end at byte `stop`. -/
def number (start stop : Nat) : Except Failure Move := do
  match ← peek symbols base text start 1 with
  | some dot =>
    if dot.cls = .atom .dot then
      match ← fraction symbols final base text start 2 with
      | .digits stop => return .piece (.leaf .float) start stop
      | .undecided => return .wait .normal none
      | .absent => return .piece (.leaf .integer) start stop
    else
      return .piece (.leaf .integer) start stop
  | none => return if final then .piece (.leaf .integer) start stop else .wait .normal none

/-- A dot with no digit before it. -/
def dot (start stop : Nat) : Except Failure Move := do
  match ← fraction symbols final base text start 1 with
  | .digits stop => return .piece (.leaf .float) start stop
  | .undecided => return .wait .normal none
  | .absent => return .piece (.leaf .symbol) start stop

/-- The piece that a segment from byte `start` up to byte `stop` starts. -/
def segment (cls : CharClass) (start stop : Nat) : Except Failure Move :=
  match cls with
  | .atom (.opening d) => .ok (.piece (.opener d) start stop)
  | .atom (.closing d) => .ok (.piece (.closer d) start stop)
  | .atom (.quote q) => .ok (.enter (.string q 1 false))
  | .atom .dot => dot symbols final base text start stop
  | .atom .backslash | .atom .slash | .atom .asterisk | .symbol =>
    .ok (.piece (.leaf .symbol) start stop)
  | .run .digits => number symbols final base text start stop
  | .run .text => .ok (.piece (.leaf .ident) start stop)
  | .run .whitespace | .newline => .ok (.piece (.leaf .whitespace) start stop)

end

/-! ## Strings and comments -/

/-- Where a string ends. -/
inductive Quoted where
  /-- At that byte. -/
  | closed (stop : Nat)
  /-- Beyond the text, which was searched up to that byte; the next character is escaped or not. -/
  | unfinished (pos : Nat) (escaped : Bool)

theorem size_of_cut {t rest : Text} {pos : Nat} (h : cut t pos = .ok rest) :
    pos + Text.size rest = Text.size t := by
  unfold cut at h
  split at h
  · next hdrop =>
    cases h
    exact Text.dropBytes?_size hdrop
  · cases h

theorem length_of_bytesFrom {t : Text} {pos : Nat} {bytes : List UInt8}
    (h : bytesFrom t pos = .ok bytes) : pos + bytes.length = Text.size t := by
  unfold bytesFrom at h
  split at h
  · next hle =>
    cases h
    rw [List.length_drop, Text.length_bytes, Nat.add_sub_cancel' hle]
  · cases h

/-- Searches from byte `pos` on for the first quote that no backslash escapes. An escaped character
is passed over as a character, all else byte by byte. -/
def findQuote (quote : Quote) (text : Text) (pos : Nat) (escaped : Bool) : Except Failure Quoted :=
  if escaped then
    match _hcut : cut text pos with
    | .error e => .error e
    | .ok [] => .ok (.unfinished pos true)
    | .ok (c :: _) => findQuote quote text (pos + c.utf8Size) false
  else
    match _hbytes : bytesFrom text pos with
    | .error e => .error e
    | .ok bytes =>
      match _hfound : Text.findByte quote.char '\\' bytes with
      | none => .ok (.unfinished (Text.size text) false)
      | some found =>
        match byteAt text (pos + found) with
        | .error e => .error e
        | .ok b =>
          if b = '\\'.toUInt8 then findQuote quote text (pos + found + 1) true
          else .ok (.closed (pos + found + 1))
termination_by Text.size text - pos
decreasing_by
  · have hsize := size_of_cut _hcut
    have hpos := Char.utf8Size_pos c
    rw [Text.size_cons] at hsize
    omega
  · have hlength := length_of_bytesFrom _hbytes
    have hlt : found < bytes.length := (List.findIdx?_eq_some_iff_findIdx_eq.1 _hfound).1
    omega

theorem findQuote_escaped (quote : Quote) (text : Text) (pos : Nat) :
    findQuote quote text pos true = (do
      match ← cut text pos with
      | [] => return .unfinished pos true
      | c :: _ => findQuote quote text (pos + c.utf8Size) false) := by
  rw [findQuote.eq_def, if_pos rfl]
  split
  · next h => rw [h]; rfl
  · next h => rw [h]; rfl
  · next h => rw [h]; rfl

theorem findQuote_unescaped (quote : Quote) (text : Text) (pos : Nat) :
    findQuote quote text pos false = (do
      let bytes ← bytesFrom text pos
      match Text.findByte quote.char '\\' bytes with
      | none => return .unfinished (Text.size text) false
      | some found =>
        let b ← byteAt text (pos + found)
        if b = '\\'.toUInt8 then findQuote quote text (pos + found + 1) true
        else return .closed (pos + found + 1)) := by
  rw [findQuote.eq_def, if_neg Bool.false_ne_true]
  split
  · next h => rw [h]; rfl
  · next bytes h =>
    simp only [h, bind, Except.bind]
    split
    · next hfound => simp only [hfound]; rfl
    · next found hfound =>
      simp only [hfound]
      cases byteAt text (pos + found) <;> rfl

section

variable (final : Bool) (text : Text)

/-- A string that starts at byte `start`, searched up to byte `scanned` of it. -/
def string (quote : Quote) (start scanned : Nat) (escaped : Bool) : Except Failure Move := do
  match ← findQuote quote text (start + scanned) escaped with
  | .closed stop => return .piece (.leaf (.string quote)) start stop
  | .unfinished pos escaped =>
    if final then return .piece (.leaf .symbol) start (start + 1)
    let scanned ← minus pos start
    return .wait (.string quote scanned escaped) none

/-- A comment up to the end of the line, searched up to byte `scanned` of it. -/
def lineComment (start scanned : Nat) : Except Failure Move := do
  let bytes ← bytesFrom text (start + scanned)
  match Text.findByte '\n' '\r' bytes with
  | some found => return .piece (.leaf (.comment .line)) start (start + scanned + found)
  | none =>
    if final then return .piece (.leaf (.comment .line)) start (Text.size text)
    let scanned ← minus (Text.size text) start
    return .wait (.lineComment scanned) none

/-- A comment of the style at that index, searched up to byte `scanned` of it. -/
def blockComment (styles : List CommentStyle) (style start scanned : Nat) :
    Except Failure Move := do
  match (← itemAt styles style).close with
  | none => lineComment final text start scanned
  | some close =>
    let bytes ← bytesFrom text (start + scanned)
    match Text.findBytes (Text.bytes close) bytes with
    | some found =>
      return .piece (.leaf (.comment .block)) start (start + scanned + found + Text.size close)
    | none =>
      if final then return .piece .unterminated start (Text.size text)
      let kept ← minus (Text.size close) 1
      let length ← minus (Text.size text) start
      return .wait (.blockComment style close (max scanned (length - kept))) none

end

/-! ## The step -/

section

variable (config : Config) (final : Bool) (base : Nat) (text : Text)

/-- The piece at byte `pos`: a comment before an operator, an operator before all else. -/
def normal (pos : Nat) : Except Failure Move := do
  let rest ← cut text pos
  if rest.isEmpty then return .done
  match config.commentAt rest final with
  | .undecided => return .wait .normal none
  | .found index _ =>
    let style ← itemAt config.styles index
    return .enter (style.mode index)
  | .absent =>
    match config.operatorAt rest final with
    | .undecided => return .wait .normal none
    | .found index _ =>
      let operator ← itemAt config.operators index
      return .piece (.leaf .operator) pos (pos + Text.size operator)
    | .absent =>
      match ← peek config.symbols base text pos 0 with
      | none => return .done
      | some first =>
        if ← mayExtend config.symbols final base text first then
          return .wait .normal first.cls.run?
        let (start, stop) ← range base first
        segment config.symbols final base text first.cls start stop

/-- What the scanner makes of the text from byte `pos` on. -/
def step (mode : Mode) (pos : Nat) : Except Failure Move :=
  match mode with
  | .normal => normal config final base text pos
  | .string quote scanned escaped => string final text quote pos scanned escaped
  | .lineComment scanned => lineComment final text pos scanned
  | .blockComment style _ scanned => blockComment final text config.styles style pos scanned

end

/-! ## Scans and sessions -/

/-- How far the scanner got. -/
structure Reached where
  /-- The pieces cut off, in order. -/
  pieces : List Piece
  /-- What the scanner is in the middle of. -/
  mode : Mode
  /-- The byte at which it stopped. -/
  pos : Nat
  /-- The run that all of the remaining text is, if the scanner waits for the end of one. -/
  run : Option Run

/-- Takes fewer than `fuel` steps from byte `pos` of a buffer whose first byte has offset `base`,
after the pieces of the reverse of `seen`. -/
def go (config : Config) (final : Bool) (base : Nat) (buffer : Buffer) :
    (fuel : Nat) → (seen : List Piece) → Mode → (pos : Nat) → Except Failure Reached
  | 0, _, _, _ => .error .endless
  | fuel + 1, seen, mode, pos => do
    match ← step config final base buffer.text mode pos with
    | .piece kind start stop =>
      let lexeme ← lexeme buffer start stop
      let _ ← cut buffer.text stop
      let span := ⟨Segmenter.offset base start, Segmenter.offset base stop⟩
      go config final base buffer fuel (⟨kind, span, lexeme⟩ :: seen) .normal stop
    | .enter mode => go config final base buffer fuel seen mode pos
    | .wait mode run => return ⟨seen.reverse, mode, pos, run⟩
    | .done => return ⟨seen.reverse, mode, pos, none⟩

/-- Scans a buffer whose first byte has offset `base`. -/
def scanBuffer (config : Config) (final : Bool) (base : Nat) (mode : Mode) (buffer : Buffer) :
    Except Failure Reached :=
  go config final base buffer (2 * buffer.text.length + 1) [] mode 0

/-- The token tree of a whole input held in a buffer. -/
def lexBuffer (config : Config) (buffer : Buffer) : Except Failure (List Token) := do
  let reached ← scanBuffer config true 0 .normal buffer
  return (reached.pieces.foldl Nest.push ⟨[], []⟩).finish.tokens.reverse

/-- The token tree of a whole input. -/
def lex (config : Config) (source : Text) : Except Failure (List Token) :=
  lexBuffer config ⟨some 0, source⟩

/-- Scans the text held back and the chunk. -/
def scan (config : Config) (s : Session) (chunk : Text) (final : Bool) :
    Except Failure (Session × Output) := do
  let text := s.pending ++ chunk
  let reached ← scanBuffer config final s.offset s.mode ⟨some s.offset, text⟩
  let pending ← cut text reached.pos
  let offset ← plus s.offset reached.pos
  let nest := reached.pieces.foldl Nest.push ⟨s.frames, []⟩
  let nest := if final then nest.finish else nest
  return Session.settle final nest.tokens.reverse
    { s with mode := reached.mode, frames := nest.frames, pending, offset, run := reached.run }

/-- Feeds the next chunk; `final` marks the last one. -/
def feed (config : Config) (s : Session) (chunk : Text) (final : Bool) :
    Except Failure (Session × Output) :=
  if s.finished then .ok (s, ⟨[], .refused .sessionFinished⟩)
  else if maxOffset < s.offset + Text.size s.pending + Text.size chunk then
    .ok (s, ⟨[], .refused .offsetOverflow⟩)
  else if !final && s.extendsRun config chunk then
    .ok (Session.settle false [] { s with pending := s.pending ++ chunk })
  else
    scan config s chunk final

/-- Feeds chunks one after the other, each marked as the last one or not. -/
def feedEach (config : Config) (s : Session) :
    List (Text × Bool) → Except Failure (List Output)
  | [] => .ok []
  | (chunk, final) :: calls => do
    let (s, output) ← feed config s chunk final
    let outputs ← feedEach config s calls
    return output :: outputs

end Checked

/-- Feeds chunks one after the other, each marked as the last one or not. -/
def Session.feedEach (config : Config) (s : Session) : List (Text × Bool) → List Output
  | [] => []
  | (chunk, final) :: calls =>
    (s.feed config chunk final).2 :: feedEach config (s.feed config chunk final).1 calls

end TokenTree
