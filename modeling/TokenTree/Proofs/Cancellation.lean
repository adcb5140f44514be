import TokenTree.Proofs.Lifecycle
import TokenTree.Proofs.Stopping

/-!
# What a stream says of its end

A stream that ends with a summary ends in one of two ways (`Stream.Log.Ends`): behind a batch after
which the sink does not want to go on, or behind the read that found the end of the input. Only the
first counts as cancelled, but it may be the second as well: the last batch is handed over when the
end of the input has been read, and then nothing is missing.

So the flag of the summary tells whether the sink ended the stream (`Stream.Told.cancelled`). It
does not tell whether the sink ended it before the end of the input: the two differ exactly where
the sink does not want to go on behind the last batch of all (`Stream.Told.late`).
-/

namespace TokenTree

/-- A chunk that is not refused fits. -/
theorem Session.fits_of_taken {config : Config} {s : Session} (h : s.finished = false)
    {chunk : Text} {final : Bool}
    (hstatus : ∀ fault, (s.feed config chunk final).2.status ≠ .refused fault) :
    s.offset + Text.size s.pending + Text.size chunk ≤ maxOffset := by
  refine Nat.le_of_not_lt fun hsize => hstatus .offsetOverflow ?_
  rw [feed_of_unfit h hsize]

namespace Stream

open Session (AtRest)

namespace Log

variable {sink : Sink} {log : Log}

/-- The end of the input was read. -/
def ReachesEnd (log : Log) : Prop := .bytes [] ∈ log.reads

/-- The last that is done is to hand over a batch after which the sink does not want to go on. -/
def BreaksOff (sink : Sink) (log : Log) : Prop :=
  ∃ (before : Log) (tokens : List Token), log = before ++ [.batch tokens] ∧
    sink (before.batches ++ [tokens]).reverse = false

/-- The same, and the read before that batch found the end of the input. -/
def BreaksOffAtEnd (sink : Sink) (log : Log) : Prop :=
  ∃ (before : Log) (tokens : List Token),
    log = before ++ [.read (.bytes []), .batch tokens] ∧
      sink (before.batches ++ [tokens]).reverse = false

/-- How a log ends when the sink was given the batches `earlier` before, and whether that counts as
cancelled. -/
inductive Ends (sink : Sink) (earlier : List (List Token)) : Log → Bool → Prop
  | broken {before : Log} {bytes : List UInt8} {tokens : List Token}
    (hmore : ¬ before.ReachesEnd)
    (hsink : sink (earlier ++ before.batches ++ [tokens]).reverse = false) :
    Ends sink earlier (before ++ [.read (.bytes bytes), .batch tokens]) true
  | finished {before : Log} {tokens : List Token}
    (hsink : tokens ≠ [] → sink (earlier ++ before.batches ++ [tokens]).reverse = true) :
    Ends sink earlier (before ++ .read (.bytes []) :: handOver tokens) false

variable {earlier : List (List Token)} {cancelled : Bool}

@[simp] theorem reads_nil : reads [] = [] := rfl

@[simp] theorem reads_batch (tokens : List Token) (log : Log) :
    reads (.batch tokens :: log) = log.reads := rfl

@[simp] theorem batches_batch (tokens : List Token) (log : Log) :
    batches (.batch tokens :: log) = tokens :: log.batches := rfl

theorem handOver_of_ne {tokens : List Token} (h : tokens ≠ []) :
    handOver tokens = [.batch tokens] := by
  cases tokens with
  | nil => exact absurd rfl h
  | cons t ts => rfl

theorem not_reachesEnd_interrupted : ¬ ReachesEnd [.read .interrupted] := by simp [ReachesEnd]

theorem reachesEnd_interrupted_iff : ReachesEnd (.read .interrupted :: log) ↔ log.ReachesEnd := by
  simp [ReachesEnd]

/-- A read that is the last one reaches the end of the input if it gets nothing. -/
theorem reachesEnd_last_iff {bytes : List UInt8} {tokens : List Token} :
    ReachesEnd (.read (.bytes bytes) :: handOver tokens) ↔ bytes = [] := by
  simp [ReachesEnd, eq_comm]

/-- A read that gets something does not reach the end of the input. -/
theorem reachesEnd_more_iff {bytes : List UInt8} {tokens : List Token} (hmore : bytes ≠ []) :
    ReachesEnd (.read (.bytes bytes) :: (handOver tokens ++ log)) ↔ log.ReachesEnd := by
  simp [ReachesEnd, hmore.symm]

/-- What is done before changes nothing of the end. -/
theorem Ends.behind {first : Log} (hmore : ¬ first.ReachesEnd)
    (h : Ends sink (earlier ++ first.batches) log cancelled) :
    Ends sink earlier (first ++ log) cancelled := by
  cases h with
  | @broken before bytes tokens hbefore hsink =>
    rw [← List.append_assoc]
    refine .broken ?_ ?_
    · rw [ReachesEnd, reads_append, List.mem_append, not_or]
      exact ⟨hmore, hbefore⟩
    · rw [batches_append, ← List.append_assoc]
      exact hsink
  | @finished before tokens hsink =>
    rw [← List.append_assoc]
    refine .finished ?_
    rw [batches_append, ← List.append_assoc]
    exact hsink

/-- A batch after which the sink does not want to go on is not the last of a log that ends with the
input. -/
theorem not_breaksOff {before : Log} {tokens : List Token}
    (hsink : tokens ≠ [] → sink (before.batches ++ [tokens]).reverse = true) :
    ¬ BreaksOff sink (before ++ .read (.bytes []) :: handOver tokens) := by
  rintro ⟨left, last, hlog, hbreaks⟩
  by_cases hne : tokens = []
  · subst hne
    obtain ⟨-, hlast⟩ := List.append_inj' hlog rfl
    cases hlast
  · rw [handOver_of_ne hne, List.append_cons] at hlog
    obtain ⟨rfl, hlast⟩ := List.append_inj' hlog rfl
    cases hlast
    rw [batches_append, batches_read, batches_nil, List.append_nil, hsink hne] at hbreaks
    cases hbreaks

theorem BreaksOffAtEnd.breaksOff (h : BreaksOffAtEnd sink log) : BreaksOff sink log := by
  obtain ⟨before, tokens, rfl, hsink⟩ := h
  refine ⟨before ++ [.read (.bytes [])], tokens, by rw [List.append_assoc]; rfl, ?_⟩
  rw [batches_append, batches_read, batches_nil, List.append_nil]
  exact hsink

/-- What counts as cancelled is that the sink does not want to go on behind the last batch. -/
theorem Ends.cancelled_iff (h : Ends sink [] log cancelled) :
    cancelled = true ↔ BreaksOff sink log := by
  cases h with
  | @broken before bytes tokens _ hsink =>
    refine iff_of_true rfl ⟨before ++ [.read (.bytes bytes)], tokens, ?_, ?_⟩
    · rw [List.append_assoc]
      rfl
    · rw [batches_append, batches_read, batches_nil, List.append_nil]
      exact hsink
  | finished hsink => exact iff_of_false Bool.false_ne_true (not_breaksOff hsink)

/-- A log that does not end with a broken batch ends with the input. -/
theorem Ends.reachesEnd (h : Ends sink earlier log false) : log.ReachesEnd := by
  cases h with
  | @finished before tokens =>
    rw [ReachesEnd, reads_append, reads_read]
    exact List.mem_append_right _ List.mem_cons_self

/-- The end of the input was read in a log that counts as cancelled exactly if the batch behind that
read is the one that is broken. -/
theorem Ends.late_iff (h : Ends sink [] log cancelled) :
    cancelled = true ∧ log.ReachesEnd ↔ BreaksOffAtEnd sink log := by
  cases h with
  | @broken before bytes tokens hmore hsink =>
    constructor
    · rintro ⟨-, hend⟩
      rw [ReachesEnd, reads_append, List.mem_append] at hend
      obtain rfl : bytes = [] := by
        rcases hend with hend | hend
        · exact absurd hend hmore
        · simpa [reads] using hend
      exact ⟨before, tokens, rfl, hsink⟩
    · rintro ⟨left, last, hlog, -⟩
      obtain ⟨rfl, hlast⟩ := List.append_inj' hlog rfl
      cases hlast
      refine ⟨rfl, ?_⟩
      rw [ReachesEnd, reads_append, reads_read]
      exact List.mem_append_right _ List.mem_cons_self
  | finished hsink =>
    refine iff_of_false (fun h => Bool.false_ne_true h.1) fun h => ?_
    exact not_breaksOff hsink h.breaksOff

end Log

namespace State

variable {config : Config} {sink : Sink} {s : State} {log : Log} {outcome : Outcome}
  {summary : Summary}

/-! ## How a stream ends -/

theorem cancelled_feed (config : Config) (s : State) (bytes : List UInt8) :
    (s.feed config bytes).1.summary.cancelled = s.summary.cancelled := rfl

theorem batches_feed_of_ne {bytes : List UInt8} (h : (s.feed config bytes).2.tokens ≠ []) :
    (s.feed config bytes).1.batches = (s.feed config bytes).2.tokens :: s.batches := by
  rw [feed_eq] at h ⊢
  exact if_neg (mt List.isEmpty_iff.1 h)

/-- A stream that ends with a summary ends as the flag of the summary says. -/
theorem Runs.ends (h : Runs config sink s log outcome) (hgoes : s.summary.cancelled = false)
    (hresult : outcome.result = .ok summary) :
    Log.Ends sink s.batches.reverse log summary.cancelled := by
  induction h with
  | @interrupted s log outcome _ ih =>
    refine Log.Ends.behind Log.not_reachesEnd_interrupted ?_
    simpa using ih hgoes hresult
  | failed => cases hresult
  | refused => cases hresult
  | @broken s bytes _ hne hsink =>
    cases hresult
    rw [Log.handOver_of_ne hne]
    show Log.Ends sink _ ([] ++ [.read (.bytes bytes), .batch _]) true
    refine .broken (by simp [Log.ReachesEnd]) ?_
    rw [batches_feed_of_ne hne] at hsink
    simpa using hsink
  | @finished s _ hsink =>
    cases hresult
    rw [cancelled_feed, hgoes]
    show Log.Ends sink _ ([] ++ .read (.bytes []) :: Log.handOver _) false
    refine .finished fun hne => ?_
    have hsink := hsink hne
    rw [batches_feed_of_ne hne] at hsink
    simpa using hsink
  | @more s bytes log outcome hmore _ _ _ ih =>
    refine Log.Ends.behind (mt Log.reachesEnd_last_iff.1 hmore) ?_
    rw [Log.batches_read, ← batches_feed_eq]
    exact ih hgoes hresult

/-! ## What a stream that reaches the end hands over -/

theorem fits_of_status (h : AtRest config s.session) {bytes : List UInt8}
    (hstatus : ∀ fault, (s.feed config bytes).2.status ≠ .refused fault) :
    s.session.offset + Text.size s.session.pending +
      Text.size (s.decoder.decode bytes bytes.isEmpty).1 ≤ maxOffset :=
  Session.fits_of_taken h.unfinished hstatus

/-- What was not refused before the end of the input was read fits. -/
theorem Runs.awaits (h : Runs config sink s log outcome) (hrests : AtRest config s.session)
    (hresult : outcome.result = .ok summary) (hend : log.ReachesEnd) :
    Awaits config s (log.reads.flatMap Read.data) := by
  induction h with
  | interrupted _ ih =>
    exact ih hrests hresult (Log.reachesEnd_interrupted_iff.1 hend)
  | failed => cases hresult
  | refused => cases hresult
  | @broken s bytes hstatus =>
    obtain rfl := Log.reachesEnd_last_iff.1 hend
    rw [Log.reads_read, Log.reads_handOver]
    exact ⟨hrests, fits_of_status hrests hstatus⟩
  | @finished s hstatus =>
    rw [Log.reads_read, Log.reads_handOver]
    exact ⟨hrests, fits_of_status hrests hstatus⟩
  | @more s bytes log outcome hmore hstatus _ _ ih =>
    have hbytes : bytes.isEmpty = false := by simpa using hmore
    have hchunk := fits_of_status hrests hstatus
    rw [hbytes] at hchunk
    have hsize := Session.size_feed hrests hchunk
    have hrests' : AtRest config (s.feed config bytes).1.session := by
      rw [feed_eq]
      simp only [hbytes]
      exact Session.feed_atRest hrests _
    have hawaits := ih hrests' hresult ((Log.reachesEnd_more_iff hmore).1 hend)
    simp only [Log.reads_read, Log.reads_append, Log.reads_handOver, List.nil_append,
      List.flatMap_cons, Read.data]
    refine ⟨hrests, ?_⟩
    have hfits := hawaits.fits
    rw [textOf_append config s hmore, Text.size_append]
    rw [feed_eq] at hfits ⊢
    simp only [hbytes] at hfits ⊢
    omega

/-- When the end of the input has been read, the batches are all that was to be completed. -/
theorem Runs.rest_eq (h : Runs config sink s log outcome) (hrests : AtRest config s.session)
    (hresult : outcome.result = .ok summary) (hend : log.ReachesEnd) :
    (s.rest config (log.reads.flatMap Read.data)).map Token.detach =
      log.batches.flatten.map Token.detach := by
  have hawaits := h.awaits hrests hresult hend
  induction h with
  | interrupted _ ih =>
    exact ih hrests hresult (Log.reachesEnd_interrupted_iff.1 hend) hawaits
  | failed => cases hresult
  | refused => cases hresult
  | @broken s bytes =>
    obtain rfl := Log.reachesEnd_last_iff.1 hend
    rw [Log.batches_read, Log.flatten_handOver, Log.reads_read, Log.reads_handOver]
    rfl
  | finished =>
    rw [Log.batches_read, Log.flatten_handOver, Log.reads_read, Log.reads_handOver]
    rfl
  | @more s bytes log outcome hmore _ _ _ ih =>
    simp only [Log.reads_read, Log.reads_append, Log.reads_handOver, List.nil_append,
      Log.batches_read, Log.batches_append, List.flatten_append, Log.flatten_handOver,
      List.flatMap_cons, Read.data] at hawaits ⊢
    have hlater := (Log.reachesEnd_more_iff hmore).1 hend
    have hbehind := hawaits.feed hmore
    rw [rest_feed hawaits hmore, List.map_append, ih hbehind.atRest hresult hlater hbehind,
      ← List.map_append]

end State

/-! ## Whole streams -/

variable {config : Config} {options : Options} {sink : Sink} {log : Log} {outcome : Outcome}

/-- What the summary of a stream that does what the log says can be taken for. -/
structure Told (config : Config) (options : Options) (sink : Sink) (log : Log)
    (outcome : Outcome) (summary : Summary) : Prop where
  /-- The flag is set exactly if the sink does not want to go on behind the last batch. -/
  cancelled : summary.cancelled = true ↔ log.BreaksOff sink
  /-- Without the flag the end of the input was read. -/
  finished : summary.cancelled = false → log.ReachesEnd
  /-- With the flag the end of the input was read exactly if the batch of that read is the one
  behind which the sink does not want to go on. -/
  late : summary.cancelled = true ∧ log.ReachesEnd ↔ log.BreaksOffAtEnd sink
  /-- When the end of the input was read, nothing is missing, whatever the flag says: the batches
  are the tokens of the whole input. -/
  complete : log.ReachesEnd → Token.sameAll outcome.batches.flatten
    (lex config (textOf options.encoding log.reads)) = true

theorem Drives.complete (h : Drives config options sink log outcome) {summary : Summary}
    (hresult : outcome.result = .ok summary) (hend : log.ReachesEnd) :
    Token.sameAll outcome.batches.flatten
      (lex config (textOf options.encoding log.reads)) = true := by
  obtain ⟨hbatches, -⟩ := h.batches_eq
  cases h with
  | refused => cases hresult
  | started _ h =>
    have hrests : AtRest config (State.start options.encoding).session :=
      Session.start_atRest config
    have hfit : Text.size (textOf options.encoding log.reads) ≤ maxOffset :=
      Nat.le_trans (Nat.le_add_left _ _) (h.awaits hrests hresult hend).fits
    rw [hbatches, Token.sameAll_iff, ← h.rest_eq hrests hresult hend,
      rest_start config options.encoding hfit]

theorem Drives.told (h : Drives config options sink log outcome) {summary : Summary}
    (hresult : outcome.result = .ok summary) :
    Told config options sink log outcome summary := by
  have hends : Log.Ends sink [] log summary.cancelled := by
    cases h with
    | refused => cases hresult
    | started _ h => exact h.ends rfl hresult
  refine ⟨hends.cancelled_iff, fun hflag => ?_, hends.late_iff, h.complete hresult⟩
  rw [hflag] at hends
  exact hends.reachesEnd

/-- A stream that ends with a summary has a log of what it does, and its summary says that it was
cancelled exactly if the log ends with a batch after which the sink does not want to go on. That the
end of the input was not read by then follows exactly if that batch is not the one of the read at
the end of the input. If it is, the stream is said to be cancelled although the tokens of the whole
input were handed over. -/
theorem drive_tells (config : Config) (options : Options) (sink : Sink) (reads : List Read) :
    ∃ log : Log, log.reads <+: reads ++ [.bytes []] ∧
      Drives config options sink log (drive config options sink reads) ∧
      ∀ summary, (drive config options sink reads).result = .ok summary →
        Told config options sink log (drive config options sink reads) summary := by
  obtain ⟨log, hdrives, hreads⟩ := exists_drives config options sink reads
  exact ⟨log, hreads, hdrives, fun _ => hdrives.told⟩

/-- The name that ends with the input is handed over when the end of the input has been read. A sink
that does not want to go on then has had the whole tree, and the stream is said to be cancelled. -/
theorem drive_cancelled_at_end :
    let sink : Sink := fun _ => false
    let outcome := drive .default ⟨.utf8, 8⟩ sink [.bytes [0x61, 0x62]]
    ∃ log : Log, Drives .default ⟨.utf8, 8⟩ sink log outcome ∧ log.ReachesEnd ∧
      outcome.result = .ok ⟨2, 2, 1, true⟩ ∧
      Token.sameAll outcome.batches.flatten (lex .default ['a', 'b']) = true := by
  intro sink outcome
  have hresult : outcome.result = .ok ⟨2, 2, 1, true⟩ := by decide +kernel
  have hbatches : Token.sameAll outcome.batches.flatten (lex .default ['a', 'b']) = true := by
    decide +kernel
  -- The first read completes nothing, as the name may go on. The read at the end completes it.
  let first := (State.start .utf8).feed .default [0x61, 0x62]
  have hfirst : first.2.status = .needMoreData := by decide +kernel
  have hnone : first.2.tokens = [] := List.eq_nil_of_length_eq_zero (by decide +kernel)
  have hlast : (first.1.feed .default []).2.status = .complete := by decide +kernel
  have hone : (first.1.feed .default []).2.tokens.length = 1 := by decide +kernel
  have hlater : State.Runs .default sink first.1 (.read (.bytes []) :: _) _ :=
    .broken (fun fault => by rw [hlast]; exact nofun)
      (List.ne_nil_of_length_pos (by rw [hone]; exact Nat.zero_lt_one)) rfl
  have hruns : State.Runs .default sink (State.start .utf8) _ _ :=
    .more (List.cons_ne_nil _ _) (fun fault => by rw [hfirst]; exact nofun)
      (fun hne => absurd hnone hne) hlater
  have houtcome := hruns.run_eq []
  rw [Log.reads_read, Log.reads_append, Log.reads_handOver, Log.reads_read, Log.reads_handOver]
    at houtcome
  refine ⟨_, .started (by decide) (houtcome ▸ hruns), ?_, hresult, hbatches⟩
  rw [Log.ReachesEnd, Log.reads_read, Log.reads_append, Log.reads_handOver, Log.reads_read]
  exact List.mem_cons_of_mem _ List.mem_cons_self

end Stream

end TokenTree
