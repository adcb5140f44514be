import TokenTree.Encoding.Decoder
import TokenTree.Session
import TokenTree.Stream.Source

/-!
# Driving a session from a source

`drive` reads a source to its end, decodes what it reads and feeds it to a session. The tokens that
a read completes are a batch, which a sink is given before the next read. The sink may end the
session at any batch.
-/

namespace TokenTree

namespace Stream

/-- How a source is read. -/
structure Options where
  encoding : Encoding := .utf8
  /-- The number of bytes asked for at each read. -/
  chunkSize : Nat := 64 * 1024
  deriving DecidableEq

/-- Why a stream ends before its time. -/
inductive Error where
  /-- The source failed. -/
  | io (error : ReadError)
  /-- No encoding has that label. -/
  | unknownEncoding (label : Text)
  /-- No bytes would be asked for. -/
  | zeroChunkSize
  /-- The session refused a chunk. -/
  | fault (fault : Fault)
  deriving DecidableEq

/-- The wording of the error. -/
def Error.message : Error → String
  | io e => "failed to read input: " ++ e.message
  | unknownEncoding label => "unknown encoding label `" ++ String.ofList label ++ "`"
  | zeroChunkSize => "chunk size must be at least one byte"
  | fault f => "lexer rejected a chunk: " ++ f.message

/-- The default options for the encoding with that label. -/
def Options.ofLabel (label : Text) : Except Error Options :=
  match Encoding.ofLabel? label with
  | some encoding => .ok { encoding := encoding }
  | none => .error (.unknownEncoding label)

/-- What was done. -/
structure Summary where
  /-- The number of bytes read. -/
  bytes : Nat
  /-- The number of reads that gave bytes or the end of the input. -/
  reads : Nat
  /-- The number of tokens outside of all blocks. -/
  tokens : Nat
  /-- The sink ended the session. -/
  cancelled : Bool
  deriving DecidableEq, Repr

/-- The batches that the sink was given, and how it ended. -/
structure Outcome where
  /-- The batches, in order. -/
  batches : List (List Token)
  /-- What was done, unless an error ended it. -/
  result : Except Error Summary

/-- Decides after each batch whether to go on, given all batches so far, the last one first. -/
abbrev Sink := List (List Token) → Bool

/-- Where a stream stands between two reads. -/
structure State where
  decoder : Decoder
  session : Session
  /-- What was done so far. -/
  summary : Summary
  /-- The batches so far, the last one first. -/
  batches : List (List Token)

namespace State

/-- The stream before the first read. -/
def start (encoding : Encoding) : State := ⟨.ofEncoding encoding, .start, ⟨0, 0, 0, false⟩, []⟩

/-- The stream ends with this result. -/
def stop (s : State) (result : Except Error Summary) : Outcome := ⟨s.batches.reverse, result⟩

/-- The stream after a read of bytes, none of them at the end of the input, with the answer of the
session. -/
def feed (config : Config) (s : State) (bytes : List UInt8) : State × Output :=
  let (text, decoder) := s.decoder.decode bytes bytes.isEmpty
  let (session, output) := s.session.feed config text bytes.isEmpty
  let summary := { s.summary with
    bytes := s.summary.bytes + bytes.length
    reads := s.summary.reads + 1
    tokens := s.summary.tokens + output.tokens.length }
  let batches := if output.tokens.isEmpty then s.batches else output.tokens :: s.batches
  (⟨decoder, session, summary, batches⟩, output)

/-- Goes on with the outcomes of the reads to come. -/
def run (config : Config) (sink : Sink) (s : State) : List Read → Outcome
  | [] => s.stop (.ok s.summary)
  | .interrupted :: reads => run config sink s reads
  | .failed error :: _ => s.stop (.error (.io error))
  | .bytes bytes :: reads =>
    let (s, output) := s.feed config bytes
    match output.status with
    | .refused fault => s.stop (.error (.fault fault))
    | _ =>
      if !output.tokens.isEmpty && !sink s.batches then
        s.stop (.ok { s.summary with cancelled := true })
      else if bytes.isEmpty then s.stop (.ok s.summary)
      else run config sink s reads

end State

/-- Reads a source, whose reads have these outcomes, up to its end. -/
def drive (config : Config) (options : Options) (sink : Sink) (reads : List Read) : Outcome :=
  if options.chunkSize = 0 then ⟨[], .error .zeroChunkSize⟩
  else (State.start options.encoding).run config sink (reads ++ [.bytes []])

/-- The tokens of all a source has. -/
def readAll (config : Config) (options : Options) (reads : List Read) :
    Except Error (List Token) :=
  let outcome := drive config options (fun _ => true) reads
  outcome.result.map fun _ => outcome.batches.flatten

end Stream

end TokenTree
