import TokenTree.Proofs.Accounting
import TokenTree.Proofs.Decoding
import TokenTree.Stream.Drive

/-!
# Streams end with the tokens of their input

A source may deliver its bytes in reads of any size and may be interrupted at any time: the tokens
of all batches are those of the whole text that its bytes are decoded to (`Stream.drive_eq_lex`).

A read may end inside a character, whose bytes then wait in the decoder, and inside a token, whose
text then waits in the session. What a stream is still to hand over is what the session, given in
one chunk all that the decoder makes of the bytes to come, would (`Stream.State.run_adds`): a read
takes its own part away from the front of that (`Stream.State.rest_feed`).
-/

namespace TokenTree

namespace Read

/-- The bytes that the read gives. -/
def data : Read → List UInt8
  | .bytes given => given
  | _ => []

/-- The read gives bytes or the end of the input. -/
def isBytes : Read → Bool
  | .bytes _ => true
  | _ => false

/-- The read gives some bytes, or it is interrupted. -/
inductive Delivers : Read → Prop
  | bytes {given : List UInt8} (hne : given ≠ []) : Delivers (.bytes given)
  | interrupted : Delivers .interrupted

end Read

namespace Stream

open Session (AtRest)

namespace State

variable {config : Config} {s : State}

/-! ## One read -/

theorem feed_eq (config : Config) (s : State) (bytes : List UInt8) :
    s.feed config bytes =
      let decoded := s.decoder.decode bytes bytes.isEmpty
      let answer := s.session.feed config decoded.1 bytes.isEmpty
      (⟨decoded.2, answer.1,
        { s.summary with
          bytes := s.summary.bytes + bytes.length
          reads := s.summary.reads + 1
          tokens := s.summary.tokens + answer.2.tokens.length },
        if answer.2.tokens.isEmpty then s.batches else answer.2.tokens :: s.batches⟩,
        answer.2) := rfl

/-- The batches so far are the tokens completed so far. -/
theorem batches_feed (config : Config) (s : State) (bytes : List UInt8) :
    (s.feed config bytes).1.batches.reverse.flatten =
      s.batches.reverse.flatten ++ (s.feed config bytes).2.tokens := by
  simp only [feed_eq]
  generalize (s.session.feed config _ _).2.tokens = tokens
  cases tokens with
  | nil => simp
  | cons t ts => simp

/-- A sink that wants to go on leaves the end to the source. -/
theorem run_bytes {sink : Sink} {bytes : List UInt8} (reads : List Read)
    (hstatus : ∀ fault, (s.feed config bytes).2.status ≠ .refused fault)
    (hsink : (s.feed config bytes).2.tokens ≠ [] → sink (s.feed config bytes).1.batches = true) :
    s.run config sink (.bytes bytes :: reads) =
      if bytes.isEmpty then (s.feed config bytes).1.stop (.ok (s.feed config bytes).1.summary)
      else (s.feed config bytes).1.run config sink reads := by
  rw [run]
  generalize s.feed config bytes = fed at hstatus hsink
  obtain ⟨s', tokens, status⟩ := fed
  have hgoes : (!tokens.isEmpty && !sink s'.batches) = false := by
    cases tokens with
    | nil => rfl
    | cons t ts => simp [hsink]
  cases status with
  | refused fault => exact absurd rfl (hstatus fault)
  | ready => simp [hgoes]
  | needMoreData => simp [hgoes]
  | complete => simp [hgoes]

/-- What the bytes to come are decoded to. -/
def textOf (s : State) (bytes : List UInt8) : Text := (s.decoder.decode bytes true).1

/-- The tokens that are still to be completed when these are the bytes to come. -/
def rest (config : Config) (s : State) (bytes : List UInt8) : List Token :=
  (s.session.feed config (s.textOf bytes) true).2.tokens

/-- The session is between two chunks, and has room for the text of the bytes to come. -/
structure Awaits (config : Config) (s : State) (bytes : List UInt8) : Prop where
  atRest : AtRest config s.session
  fits : s.session.offset + Text.size s.session.pending + Text.size (s.textOf bytes) ≤ maxOffset

theorem textOf_append (config : Config) (s : State) {bytes : List UInt8} (hne : bytes ≠ [])
    (behind : List UInt8) :
    s.textOf (bytes ++ behind) =
      (s.decoder.decode bytes false).1 ++ (s.feed config bytes).1.textOf behind := by
  have hmore : bytes.isEmpty = false := by simpa using hne
  rw [textOf, Decoder.decode_append, textOf, feed_eq]
  simp only [hmore]

/-- A read that is not the last takes its bytes away from those to come. -/
theorem Awaits.feed {bytes behind : List UInt8} (h : Awaits config s (bytes ++ behind))
    (hne : bytes ≠ []) : Awaits config (s.feed config bytes).1 behind := by
  have hmore : bytes.isEmpty = false := by simpa using hne
  have hfits := h.fits
  rw [textOf_append config s hne, Text.size_append] at hfits
  have hchunk : s.session.offset + Text.size s.session.pending +
      Text.size (s.decoder.decode bytes false).1 ≤ maxOffset := by omega
  have hsize := Session.size_feed h.atRest hchunk
  refine ⟨?_, ?_⟩
  · rw [feed_eq]
    simp only [hmore]
    exact Session.feed_atRest h.atRest _
  · rw [feed_eq] at hfits ⊢
    simp only [hmore] at hfits ⊢
    omega

/-- What a read completes are the first of the tokens that are still to be completed. -/
theorem rest_feed {bytes behind : List UInt8} (h : Awaits config s (bytes ++ behind))
    (hne : bytes ≠ []) :
    (s.rest config (bytes ++ behind)).map Token.detach =
      ((s.feed config bytes).2.tokens ++ (s.feed config bytes).1.rest config behind).map
        Token.detach := by
  have hmore : bytes.isEmpty = false := by simpa using hne
  have hfits := h.fits
  rw [textOf_append config s hne] at hfits
  have hagree := Session.feed_append h.atRest true hfits
  rw [rest, textOf_append config s hne, ← hagree.tokens, rest]
  rw [feed_eq]
  simp only [hmore, Session.after]

theorem status_feed {bytes behind : List UInt8} (h : Awaits config s (bytes ++ behind))
    (hne : bytes ≠ []) (fault : Fault) : (s.feed config bytes).2.status ≠ .refused fault := by
  have hmore : bytes.isEmpty = false := by simpa using hne
  have hfits := h.fits
  rw [textOf_append config s hne, Text.size_append] at hfits
  rw [feed_eq]
  simp only [hmore]
  rw [Session.Account.status_of_fits h.atRest (by omega)]
  split <;> exact nofun

/-! ## All reads -/

/-- The stream ends with an outcome to which so many more bytes, reads and tokens lead. -/
structure Adds (s : State) (bytes reads : Nat) (tokens : List Token) (outcome : Outcome) :
    Prop where
  result : outcome.result = .ok { s.summary with
    bytes := s.summary.bytes + bytes
    reads := s.summary.reads + reads
    tokens := s.summary.tokens + tokens.length }
  batches : outcome.batches.flatten.map Token.detach =
    (s.batches.reverse.flatten ++ tokens).map Token.detach

theorem length_eq_of_detach {ts us : List Token} (h : ts.map Token.detach = us.map Token.detach) :
    ts.length = us.length := by
  have hlength := congrArg List.length h
  rwa [List.length_map, List.length_map] at hlength

/-- What the rest of a stream adds behind a read, and the read itself. -/
theorem Adds.feed {bytes : List UInt8} {more reads : Nat} {tokens rest : List Token}
    {outcome : Outcome} (h : Adds (s.feed config bytes).1 more reads rest outcome)
    (hrest : tokens.map Token.detach =
      ((s.feed config bytes).2.tokens ++ rest).map Token.detach) :
    Adds s (bytes.length + more) (reads + 1) tokens outcome := by
  have hlength := length_eq_of_detach hrest
  rw [List.length_append] at hlength
  refine ⟨?_, ?_⟩
  · rw [h.result, feed_eq, hlength, feed_eq]
    simp only [Nat.add_assoc, Nat.add_comm 1 reads]
  · rw [h.batches, batches_feed, List.append_assoc, List.map_append, ← hrest, ← List.map_append]

/-- The last read hands over all that is still to be completed. -/
theorem run_last {sink : Sink} (hsink : ∀ batches, sink batches = true) (h : Awaits config s [])
    (later : List Read) :
    Adds s 0 1 (s.rest config []) (s.run config sink (.bytes [] :: later)) := by
  have hstatus : (s.feed config []).2.status = .complete := by
    show (s.session.feed config (s.textOf []) true).2.status = .complete
    rw [Session.feed_eq_scan h.atRest true h.fits]
    rfl
  have hrefused (fault : Fault) : (s.feed config []).2.status ≠ .refused fault := by
    rw [hstatus]
    exact nofun
  rw [run_bytes later hrefused fun _ => hsink _, if_pos List.isEmpty_nil]
  refine ⟨rfl, ?_⟩
  show ((s.feed config []).1.batches.reverse.flatten).map Token.detach = _
  rw [batches_feed]
  rfl

/-- Reads of any size, and interruptions between them, add the tokens of all their bytes. -/
theorem run_adds {sink : Sink} (hsink : ∀ batches, sink batches = true) {reads : List Read}
    (hreads : ∀ r ∈ reads, r.Delivers) (h : Awaits config s (reads.flatMap Read.data))
    (later : List Read) :
    Adds s (reads.flatMap Read.data).length (reads.countP Read.isBytes + 1)
      (s.rest config (reads.flatMap Read.data))
      (s.run config sink (reads ++ .bytes [] :: later)) := by
  induction reads generalizing s with
  | nil => exact run_last hsink h later
  | cons r reads ih =>
    have hrest : ∀ r ∈ reads, r.Delivers := fun r hr => hreads r (List.mem_cons_of_mem _ hr)
    cases hreads r List.mem_cons_self with
    | interrupted => exact ih hrest h
    | @bytes given hne =>
      have hmore : given.isEmpty = false := by simpa using hne
      have hawaits : Awaits config s (given ++ reads.flatMap Read.data) := h
      have hadds := ih hrest (hawaits.feed hne)
      rw [List.cons_append, run_bytes _ (status_feed hawaits hne) fun _ => hsink _, hmore,
        if_neg Bool.false_ne_true]
      have hcount : (Read.bytes given :: reads).countP Read.isBytes =
          reads.countP Read.isBytes + 1 := List.countP_cons_of_pos rfl
      have hboth := hadds.feed (rest_feed hawaits hne)
      rw [← List.length_append] at hboth
      rw [hcount]
      exact hboth

end State

/-- The text that the bytes of all reads are decoded to at once. -/
def textOf (encoding : Encoding) (reads : List Read) : Text :=
  ((Decoder.ofEncoding encoding).decode (reads.flatMap Read.data) true).1

theorem start_awaits (config : Config) (encoding : Encoding) {reads : List Read}
    (hfit : Text.size (textOf encoding reads) ≤ maxOffset) :
    (State.start encoding).Awaits config (reads.flatMap Read.data) where
  atRest := Session.start_atRest config
  fits := by
    have hzero : Session.start.offset + Text.size Session.start.pending = 0 := rfl
    show Session.start.offset + Text.size Session.start.pending + _ ≤ maxOffset
    rw [hzero, Nat.zero_add]
    exact hfit

theorem rest_start (config : Config) (encoding : Encoding) {reads : List Read}
    (hfit : Text.size (textOf encoding reads) ≤ maxOffset) :
    (State.start encoding).rest config (reads.flatMap Read.data) =
      lex config (textOf encoding reads) := by
  have hawaits := start_awaits config encoding hfit
  rw [State.rest, Session.feed_eq_scan hawaits.atRest true hawaits.fits]
  rfl

/-- A source that delivers all its bytes, in reads of any size and with any interruptions between
them, gives the tokens of the text that its bytes are decoded to at once. The summary counts its
bytes, the reads that were not interrupted, the one at the end of the input among them, and the
tokens. -/
theorem drive_eq_lex (config : Config) {options : Options} (hsize : options.chunkSize ≠ 0)
    {reads : List Read} (hreads : ∀ r ∈ reads, r.Delivers) (later : List Read)
    (hfit : Text.size (textOf options.encoding reads) ≤ maxOffset) :
    (∃ tokens, readAll config options (reads ++ .bytes [] :: later) = .ok tokens ∧
      Token.sameAll tokens (lex config (textOf options.encoding reads)) = true) ∧
    ∀ sink : Sink, (∀ batches, sink batches = true) →
      (drive config options sink (reads ++ .bytes [] :: later)).result = .ok
        { bytes := (reads.flatMap Read.data).length
          reads := reads.countP Read.isBytes + 1
          tokens := (lex config (textOf options.encoding reads)).length
          cancelled := false } := by
  have hawaits := start_awaits config options.encoding hfit
  have hadds (sink : Sink) (hsink : ∀ batches, sink batches = true) :
      State.Adds (.start options.encoding) (reads.flatMap Read.data).length
        (reads.countP Read.isBytes + 1) (lex config (textOf options.encoding reads))
        (drive config options sink (reads ++ .bytes [] :: later)) := by
    rw [drive, if_neg hsize, List.append_assoc, List.cons_append,
      ← rest_start config options.encoding hfit]
    exact State.run_adds hsink hreads hawaits (later ++ [.bytes []])
  refine ⟨?_, ?_⟩
  · obtain ⟨hresult, hbatches⟩ := hadds (fun _ => true) fun _ => rfl
    refine ⟨_, ?_, Token.sameAll_iff.2 hbatches⟩
    rw [readAll, hresult]
    rfl
  · intro sink hsink
    rw [(hadds sink hsink).result]
    simp [State.start]

/-- A bracket and a letter of two bytes, which a read and an interruption divide. -/
theorem drive_eq_lex_letter :
    let reads : List Read := [.bytes [0x28, 0xC3], .interrupted, .bytes [0xA9]]
    let outcome := drive .default ⟨.utf8, 2⟩ (fun _ => true) (reads ++ [.bytes []])
    2 ≠ 0 ∧ (∀ r ∈ reads, r.Delivers) ∧ textOf .utf8 reads = ['(', 'é'] ∧
      Text.size (textOf .utf8 reads) ≤ maxOffset ∧
      (∃ tokens, readAll .default ⟨.utf8, 2⟩ (reads ++ [.bytes []]) = .ok tokens ∧
        Token.sameAll tokens (lex .default ['(', 'é']) = true) ∧
      outcome.result = .ok ⟨3, 3, (lex .default ['(', 'é']).length, false⟩ := by
  intro reads outcome
  have hdelivers : ∀ r ∈ reads, r.Delivers := by
    intro r hr
    rcases List.mem_cons.1 hr with rfl | hr
    · exact .bytes (by decide)
    rcases List.mem_cons.1 hr with rfl | hr
    · exact .interrupted
    rcases List.mem_cons.1 hr with rfl | hr
    · exact .bytes (by decide)
    · cases hr
  have htext : textOf .utf8 reads = ['(', 'é'] := by decide +kernel
  have hfit : Text.size (textOf .utf8 reads) ≤ maxOffset := by
    rw [htext]
    decide
  have hlex := @drive_eq_lex .default ⟨.utf8, 2⟩ (by decide) reads hdelivers [] hfit
  rw [htext] at hlex
  exact ⟨by decide, hdelivers, htext, hfit, hlex.1, hlex.2 (fun _ => true) fun _ => rfl⟩

end Stream

end TokenTree
