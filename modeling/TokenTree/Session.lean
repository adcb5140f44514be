import TokenTree.Nesting

/-!
# Sessions

An input may arrive in chunks. A `Session` is what is known between two of them: the open blocks,
and the text that was held back because the text to come decides what it is. Feeding a chunk gives
the tokens that it completes. In the end these are the tokens of the whole input, wherever the input
was cut.

A run of text that reaches the end of a chunk is held back too. When the next chunk is nothing but
more of the same run, it is added to what is held back without a new scan.
-/

namespace TokenTree

/-- What is known of an input between two chunks. -/
structure Session where
  /-- What the text held back is the beginning of. -/
  mode : Mode
  /-- The open blocks, the innermost first. -/
  frames : List Frame
  /-- The text held back. -/
  pending : Text
  /-- The offset of the text held back. -/
  offset : Nat
  /-- The run that all of the text held back is. -/
  run : Option Run
  /-- The last chunk was fed. -/
  finished : Bool

/-- Why a chunk is refused. -/
inductive Fault where
  /-- The last chunk was fed before. -/
  | sessionFinished
  /-- The input would go beyond the greatest offset. -/
  | offsetOverflow
  deriving DecidableEq, Repr

/-- The wording of the fault. -/
def Fault.message : Fault → String
  | sessionFinished => "the session already received its final chunk"
  | offsetOverflow => "input exceeds the 4 GiB offset space"

/-- What a chunk leaves of the input. -/
inductive Status where
  /-- Nothing is open or held back. -/
  | ready
  /-- Something is open or held back. -/
  | needMoreData
  /-- The input is complete. -/
  | complete
  /-- The chunk was refused and changed nothing. -/
  | refused (fault : Fault)
  deriving DecidableEq, Repr

/-- The answer to a chunk. -/
structure Output where
  /-- The tokens outside of all blocks that are complete now. -/
  tokens : List Token
  /-- What the chunk leaves. -/
  status : Status

namespace Session

/-- The start of an input. -/
def start : Session := ⟨.normal, [], [], 0, none, false⟩

/-- The session made ready for another input; whatever was open or held back is dropped. -/
def reset (_ : Session) : Session := start

/-- The number of open blocks. -/
def depth (s : Session) : Nat := s.frames.length

/-- Nothing is open or held back. -/
def isSettled (s : Session) : Bool :=
  s.mode == .normal && s.frames.isEmpty && s.pending.isEmpty

/-- The session under a configuration that need not be the one it was fed under. An open block
comment goes on in the comment style that stands at the index of its own style; there is no session
when no style stands there. -/
def resume (config : Config) (s : Session) : Option Session :=
  match s.mode with
  | .blockComment index _ scanned =>
    match config.styles[index]? with
    | none => none
    | some ⟨_, none⟩ => some { s with mode := .lineComment scanned }
    | some ⟨_, some close⟩ => some { s with mode := .blockComment index close scanned }
  | _ => some s

/-- The chunk only lengthens the run that is held back. -/
def extendsRun (config : Config) (s : Session) (chunk : Text) : Bool :=
  match s.run, config.symbols.munch chunk with
  | some run, some (cls, _, []) => cls = .run run
  | _, _ => false

/-- The answer after a chunk, with the tokens that it completed. -/
def settle (final : Bool) (tokens : List Token) (s : Session) : Session × Output :=
  if final then ({ s with finished := true }, ⟨tokens, .complete⟩)
  else (s, ⟨tokens, if s.isSettled then .ready else .needMoreData⟩)

/-- Scans the text held back and the chunk. -/
def scan (config : Config) (s : Session) (chunk : Text) (final : Bool) : Session × Output :=
  let scan := Scan.ofBuffer config final s.offset s.mode ⟨some s.offset, s.pending ++ chunk⟩
  let nest := scan.pieces.foldl Nest.push ⟨s.frames, []⟩
  let nest := if final then nest.finish else nest
  settle final nest.tokens.reverse
    { s with
      mode := scan.mode
      frames := nest.frames
      pending := scan.cursor.rest
      offset := s.offset + scan.cursor.pos
      run := scan.run }

/-- Feeds the next chunk; `final` marks the last one. -/
def feed (config : Config) (s : Session) (chunk : Text) (final : Bool) : Session × Output :=
  if s.finished then (s, ⟨[], .refused .sessionFinished⟩)
  else if maxOffset < s.offset + Text.size s.pending + Text.size chunk then
    (s, ⟨[], .refused .offsetOverflow⟩)
  else if !final && s.extendsRun config chunk then
    settle false [] { s with pending := s.pending ++ chunk }
  else
    scan config s chunk final

end Session

end TokenTree
