import TokenTree.Proofs.Streaming

/-!
# Streams that end early

A stream ends early when its sink does not want to go on after a batch, or when its source fails.
The tokens of the batches up to there are right whatever the source would have delivered next
(`Stream.drive_reliable`): they are the first tokens of every input that starts with the bytes read.
Only when the end of the input has been read are they the tokens of these bytes alone, as the last
of them may be longer in a longer input (`Stream.drive_initial_at_end`).

What a stream does is seen from outside as a `Log` of the outcomes of its reads and of the batches
that it hands over. `Stream.State.Runs` says what each read adds to the log. A batch is handed over
before the next read, and nothing follows a read that fails or a batch after which the sink does not
want to go on (`Stream.State.Runs.nil_of_halts`).
-/

namespace TokenTree

/-- Nothing is completed by a chunk that is refused. -/
theorem Session.tokens_of_refused {config : Config} {s : Session} {chunk : Text} {final : Bool}
    {fault : Fault} (h : (s.feed config chunk final).2.status = .refused fault) :
    (s.feed config chunk final).2.tokens = [] := by
  have hsettle (last : Bool) (tokens : List Token) (s : Session) :
      (settle last tokens s).2.status ≠ .refused fault := by
    unfold settle
    split
    · exact nofun
    · dsimp only
      split <;> exact nofun
  unfold feed at h ⊢
  split at h
  · next hfinished => rw [if_pos hfinished]
  · next hfinished =>
    rw [if_neg hfinished]
    split at h
    · next hover => rw [if_pos hover]
    split at h
    · exact absurd h (hsettle _ _ _)
    · exact absurd h (hsettle _ _ _)

namespace Stream

/-- What is seen of a stream from outside. -/
inductive Event where
  /-- A read with this outcome. -/
  | read (r : Read)
  /-- A batch that is handed to the sink. -/
  | batch (tokens : List Token)

/-- What a stream does, in order. -/
abbrev Log := List Event

namespace Log

/-- The outcomes of the reads. -/
def reads (log : Log) : List Read :=
  log.filterMap fun
    | .read r => some r
    | .batch _ => none

/-- The batches that are handed over. -/
def batches (log : Log) : List (List Token) :=
  log.filterMap fun
    | .read _ => none
    | .batch tokens => some tokens

/-- To hand over the tokens that a read completes; there is no batch without a token. -/
def handOver (tokens : List Token) : Log := if tokens.isEmpty then [] else [.batch tokens]

@[simp] theorem batches_nil : batches [] = [] := rfl

@[simp] theorem reads_read (r : Read) (log : Log) : reads (.read r :: log) = r :: log.reads := rfl

@[simp] theorem batches_read (r : Read) (log : Log) : batches (.read r :: log) = log.batches := rfl

@[simp] theorem reads_append (log behind : Log) :
    reads (log ++ behind) = log.reads ++ behind.reads := List.filterMap_append

@[simp] theorem reads_handOver (tokens : List Token) : (handOver tokens).reads = [] := by
  cases tokens <;> rfl

@[simp] theorem batches_append (log behind : Log) :
    batches (log ++ behind) = log.batches ++ behind.batches := List.filterMap_append

@[simp] theorem flatten_handOver (tokens : List Token) :
    (handOver tokens).batches.flatten = tokens := by
  cases tokens with
  | nil => rfl
  | cons t ts => exact List.append_nil _

theorem ne_nil_of_mem_handOver {completed : List Token} :
    ∀ tokens ∈ (handOver completed).batches, tokens ≠ [] := by
  cases completed with
  | nil => exact nofun
  | cons t ts =>
    intro tokens htokens
    cases List.mem_singleton.1 htokens
    exact List.cons_ne_nil t ts

theorem nil_of_handOver {tokens : List Token} {before after : Log} {event : Event}
    (h : handOver tokens = before ++ event :: after) : after = [] := by
  have hlength : (handOver tokens).length ≤ 1 := by cases tokens <;> simp [handOver]
  rw [h, List.length_append, List.length_cons] at hlength
  exact List.eq_nil_of_length_eq_zero (by omega)

end Log

/-- Nothing follows the event: the read fails, or the sink, which was given the batches before, does
not want to go on after this one. -/
def Event.halts (sink : Sink) (earlier : List (List Token)) : Event → Bool
  | .read (.failed _) => true
  | .read _ => false
  | .batch tokens => !sink (earlier ++ [tokens]).reverse

namespace Log

variable {sink : Sink} {earlier : List (List Token)} {log before after : Log} {event : Event}

/-- The event that ends a log stands behind a read that does not fail. -/
theorem exists_of_read {r : Read} (hr : (Event.read r).halts sink earlier = false)
    (hlog : .read r :: log = before ++ event :: after)
    (hhalts : event.halts sink (earlier ++ before.batches) = true) :
    ∃ behind, before = .read r :: behind ∧ log = behind ++ event :: after := by
  cases before with
  | nil =>
    obtain ⟨rfl, -⟩ := List.cons.inj hlog
    rw [batches_nil, List.append_nil, hr] at hhalts
    cases hhalts
  | cons first behind =>
    obtain ⟨rfl, hbehind⟩ := List.cons.inj hlog
    exact ⟨behind, rfl, hbehind⟩

/-- The event that ends a log stands behind a batch after which the sink wants to go on. -/
theorem exists_of_handOver {tokens : List Token}
    (hsink : tokens ≠ [] → sink (earlier ++ (handOver tokens).batches).reverse = true)
    (hlog : handOver tokens ++ log = before ++ event :: after)
    (hhalts : event.halts sink (earlier ++ before.batches) = true) :
    ∃ behind, before = handOver tokens ++ behind ∧ log = behind ++ event :: after := by
  cases tokens with
  | nil => exact ⟨before, rfl, hlog⟩
  | cons t ts =>
    cases before with
    | nil =>
      obtain ⟨rfl, -⟩ := List.cons.inj hlog
      have hgoes : sink (earlier ++ [t :: ts]).reverse = true := hsink (List.cons_ne_nil t ts)
      rw [batches_nil, List.append_nil, Event.halts, hgoes] at hhalts
      cases hhalts
    | cons first behind =>
      obtain ⟨rfl, hbehind⟩ := List.cons.inj hlog
      exact ⟨behind, rfl, hbehind⟩

end Log

namespace State

variable {config : Config} {sink : Sink} {s : State} {log : Log} {outcome : Outcome}

/-- From this state on, up to its end, the stream does what the log says. -/
inductive Runs (config : Config) (sink : Sink) : State → Log → Outcome → Prop
  | interrupted {s : State} {log : Log} {outcome : Outcome} (h : Runs config sink s log outcome) :
    Runs config sink s (.read .interrupted :: log) outcome
  | failed {s : State} {error : ReadError} :
    Runs config sink s [.read (.failed error)] (s.stop (.error (.io error)))
  | refused {s : State} {bytes : List UInt8} {fault : Fault}
    (hstatus : (s.feed config bytes).2.status = .refused fault) :
    Runs config sink s [.read (.bytes bytes)]
      ((s.feed config bytes).1.stop (.error (.fault fault)))
  | broken {s : State} {bytes : List UInt8}
    (hstatus : ∀ fault, (s.feed config bytes).2.status ≠ .refused fault)
    (hne : (s.feed config bytes).2.tokens ≠ [])
    (hsink : sink (s.feed config bytes).1.batches = false) :
    Runs config sink s (.read (.bytes bytes) :: Log.handOver (s.feed config bytes).2.tokens)
      ((s.feed config bytes).1.stop
        (.ok { (s.feed config bytes).1.summary with cancelled := true }))
  | finished {s : State} (hstatus : ∀ fault, (s.feed config []).2.status ≠ .refused fault)
    (hsink : (s.feed config []).2.tokens ≠ [] → sink (s.feed config []).1.batches = true) :
    Runs config sink s (.read (.bytes []) :: Log.handOver (s.feed config []).2.tokens)
      ((s.feed config []).1.stop (.ok (s.feed config []).1.summary))
  | more {s : State} {bytes : List UInt8} {log : Log} {outcome : Outcome} (hmore : bytes ≠ [])
    (hstatus : ∀ fault, (s.feed config bytes).2.status ≠ .refused fault)
    (hsink : (s.feed config bytes).2.tokens ≠ [] → sink (s.feed config bytes).1.batches = true)
    (h : Runs config sink (s.feed config bytes).1 log outcome) :
    Runs config sink s
      (.read (.bytes bytes) :: (Log.handOver (s.feed config bytes).2.tokens ++ log)) outcome

/-! ## The log of a run -/

theorem run_refused {bytes : List UInt8} {fault : Fault} (later : List Read)
    (hstatus : (s.feed config bytes).2.status = .refused fault) :
    s.run config sink (.bytes bytes :: later) =
      (s.feed config bytes).1.stop (.error (.fault fault)) := by
  rw [run]
  generalize s.feed config bytes = fed at hstatus
  obtain ⟨s', tokens, status⟩ := fed
  cases hstatus
  rfl

theorem run_broken {bytes : List UInt8} (later : List Read)
    (hstatus : ∀ fault, (s.feed config bytes).2.status ≠ .refused fault)
    (hne : (s.feed config bytes).2.tokens ≠ [])
    (hsink : sink (s.feed config bytes).1.batches = false) :
    s.run config sink (.bytes bytes :: later) =
      (s.feed config bytes).1.stop
        (.ok { (s.feed config bytes).1.summary with cancelled := true }) := by
  rw [run]
  generalize s.feed config bytes = fed at hstatus hne hsink
  obtain ⟨s', tokens, status⟩ := fed
  cases status with
  | refused fault => exact absurd rfl (hstatus fault)
  | ready => simp_all
  | needMoreData => simp_all
  | complete => simp_all

/-- A stream does what its log says, whatever the reads behind those of the log would be. -/
theorem Runs.run_eq (h : Runs config sink s log outcome) (later : List Read) :
    s.run config sink (log.reads ++ later) = outcome := by
  induction h with
  | interrupted _ ih => exact ih
  | failed => rfl
  | refused hstatus => exact run_refused later hstatus
  | broken hstatus hne hsink =>
    rw [Log.reads_read, Log.reads_handOver]
    exact run_broken later hstatus hne hsink
  | finished hstatus hsink =>
    rw [Log.reads_read, Log.reads_handOver]
    exact run_bytes later hstatus hsink
  | more hmore hstatus hsink _ ih =>
    rw [Log.reads_read, Log.reads_append, Log.reads_handOver, List.nil_append, List.cons_append,
      run_bytes _ hstatus hsink, if_neg (by simpa using hmore)]
    exact ih

theorem exists_runs_bytes {bytes : List UInt8} {later : List Read}
    (hlater : bytes ≠ [] → ∃ log,
      Runs config sink (s.feed config bytes).1 log ((s.feed config bytes).1.run config sink later) ∧
        log.reads <+: later) :
    ∃ log, Runs config sink s log (s.run config sink (.bytes bytes :: later)) ∧
      log.reads <+: .bytes bytes :: later := by
  have hfirst (tokens : List Token) :
      Log.reads (.read (.bytes bytes) :: Log.handOver tokens) <+: .bytes bytes :: later := by
    rw [Log.reads_read, Log.reads_handOver]
    exact ⟨later, rfl⟩
  by_cases hrefused : ∃ fault, (s.feed config bytes).2.status = .refused fault
  · obtain ⟨fault, hstatus⟩ := hrefused
    rw [run_refused later hstatus]
    exact ⟨_, .refused hstatus, hfirst []⟩
  have hstatus := not_exists.1 hrefused
  by_cases hsink : (s.feed config bytes).2.tokens ≠ [] → sink (s.feed config bytes).1.batches = true
  · rw [run_bytes later hstatus hsink]
    cases bytes with
    | nil => exact ⟨_, .finished hstatus hsink, hfirst _⟩
    | cons b bytes =>
      obtain ⟨log, hruns, hreads⟩ := hlater (List.cons_ne_nil b bytes)
      refine ⟨_, .more (List.cons_ne_nil b bytes) hstatus hsink hruns, ?_⟩
      rw [Log.reads_read, Log.reads_append, Log.reads_handOver]
      exact (List.prefix_cons_inj _).2 hreads
  · obtain ⟨hne, hsink⟩ := Classical.not_imp.1 hsink
    have hbroken := eq_false_of_ne_true hsink
    rw [run_broken later hstatus hne hbroken]
    exact ⟨_, .broken hstatus hne hbroken, hfirst _⟩

/-- Each list of reads up to the end of the input has a log, whose reads are the first of them. -/
theorem exists_runs (config : Config) (sink : Sink) (s : State) (reads : List Read) :
    ∃ log, Runs config sink s log (s.run config sink (reads ++ [.bytes []])) ∧
      log.reads <+: reads ++ [.bytes []] := by
  induction reads generalizing s with
  | nil => exact exists_runs_bytes fun hne => absurd rfl hne
  | cons r reads ih =>
    cases r with
    | interrupted =>
      obtain ⟨log, hruns, hreads⟩ := ih s
      exact ⟨_, .interrupted hruns, (List.prefix_cons_inj _).2 hreads⟩
    | failed error => exact ⟨_, .failed, (List.prefix_cons_inj _).2 List.nil_prefix⟩
    | bytes bytes => exact exists_runs_bytes fun _ => ih _

/-! ## What a run does -/

theorem tokens_of_refused {bytes : List UInt8} {fault : Fault}
    (h : (s.feed config bytes).2.status = .refused fault) : (s.feed config bytes).2.tokens = [] :=
  Session.tokens_of_refused h

theorem batches_feed_eq (config : Config) (s : State) (bytes : List UInt8) :
    (s.feed config bytes).1.batches.reverse =
      s.batches.reverse ++ (Log.handOver (s.feed config bytes).2.tokens).batches := by
  simp only [feed_eq]
  generalize (s.session.feed config _ _).2.tokens = tokens
  cases tokens with
  | nil => exact (List.append_nil _).symm
  | cons t ts => exact List.reverse_cons

/-- The batches are those of the log, and none of them is empty. -/
theorem Runs.batches_eq (h : Runs config sink s log outcome) :
    outcome.batches = s.batches.reverse ++ log.batches ∧ ∀ tokens ∈ log.batches, tokens ≠ [] := by
  induction h with
  | interrupted _ ih => exact ih
  | failed => exact ⟨(List.append_nil _).symm, nofun⟩
  | refused hstatus =>
    refine ⟨?_, nofun⟩
    refine (batches_feed_eq _ _ _).trans ?_
    rw [tokens_of_refused hstatus]
    rfl
  | broken => exact ⟨batches_feed_eq _ _ _, Log.ne_nil_of_mem_handOver⟩
  | finished => exact ⟨batches_feed_eq _ _ _, Log.ne_nil_of_mem_handOver⟩
  | more hmore hstatus hsink _ ih =>
    obtain ⟨hbatches, hne⟩ := ih
    rw [Log.batches_read, Log.batches_append, hbatches, batches_feed_eq, List.append_assoc]
    refine ⟨rfl, fun tokens htokens => ?_⟩
    rcases List.mem_append.1 htokens with htokens | htokens
    · exact Log.ne_nil_of_mem_handOver tokens htokens
    · exact hne tokens htokens

/-- Nothing follows a read that fails, or a batch after which the sink does not want to go on. -/
theorem Runs.nil_of_halts (h : Runs config sink s log outcome) {before after : Log} {event : Event}
    (hlog : log = before ++ event :: after)
    (hhalts : event.halts sink (s.batches.reverse ++ before.batches) = true) : after = [] := by
  induction h generalizing before with
  | interrupted _ ih =>
    obtain ⟨behind, rfl, hbehind⟩ := Log.exists_of_read rfl hlog hhalts
    exact ih hbehind hhalts
  | failed =>
    cases before with
    | nil => exact (List.cons.inj hlog).2.symm
    | cons first before => simp at hlog
  | refused =>
    obtain ⟨behind, -, hbehind⟩ := Log.exists_of_read rfl hlog hhalts
    simp at hbehind
  | broken =>
    obtain ⟨behind, -, hbehind⟩ := Log.exists_of_read rfl hlog hhalts
    exact Log.nil_of_handOver hbehind
  | finished =>
    obtain ⟨behind, -, hbehind⟩ := Log.exists_of_read rfl hlog hhalts
    exact Log.nil_of_handOver hbehind
  | @more s bytes log outcome hmore hstatus hsink _ ih =>
    obtain ⟨behind, rfl, hbehind⟩ := Log.exists_of_read rfl hlog hhalts
    rw [Log.batches_read] at hhalts
    rw [← List.reverse_reverse (feed _ _ _).1.batches, batches_feed_eq] at hsink
    obtain ⟨rest, rfl, hrest⟩ := Log.exists_of_handOver hsink hbehind hhalts
    rw [Log.batches_append, ← List.append_assoc, ← batches_feed_eq] at hhalts
    exact ih hrest hhalts

/-- The stream ends with a summary that counts what it was before and what the log says. -/
def Counted (s : State) (log : Log) (outcome : Outcome) : Prop :=
  ∃ cancelled, outcome.result = .ok
    { bytes := s.summary.bytes + (log.reads.flatMap Read.data).length
      reads := s.summary.reads + log.reads.countP Read.isBytes
      tokens := s.summary.tokens + log.batches.flatten.length
      cancelled := cancelled }

theorem Counted.read {bytes : List UInt8} (h : Counted (s.feed config bytes).1 log outcome) :
    Counted s (.read (.bytes bytes) :: (Log.handOver (s.feed config bytes).2.tokens ++ log))
      outcome := by
  obtain ⟨cancelled, hresult⟩ := h
  refine ⟨cancelled, ?_⟩
  rw [hresult, feed_eq]
  simp only [Log.reads_read, Log.reads_append, Log.reads_handOver, Log.batches_read,
    Log.batches_append, List.flatten_append, Log.flatten_handOver, List.length_append,
    List.flatMap_cons, List.nil_append, List.countP_cons, Read.data, Read.isBytes, if_true,
    Nat.add_assoc, Nat.add_comm 1]

/-- What the last event of a log says of the outcome. -/
def Closes (s : State) (log : Log) (outcome : Outcome) : Event → Prop
  | .read .interrupted => False
  | .read (.failed error) => outcome.result = .error (.io error)
  | .read (.bytes _) => (∃ fault, outcome.result = .error (.fault fault)) ∨ Counted s log outcome
  | .batch _ => Counted s log outcome

theorem exists_closes_last (config : Config) (s : State) (bytes : List UInt8) (cancelled : Bool) :
    let log : Log := .read (.bytes bytes) :: Log.handOver (s.feed config bytes).2.tokens
    ∃ before event, log = before ++ [event] ∧ Closes s log ((s.feed config bytes).1.stop
      (.ok { (s.feed config bytes).1.summary with cancelled := cancelled })) event := by
  intro log
  have hcounted : Counted s log ((s.feed config bytes).1.stop
      (.ok { (s.feed config bytes).1.summary with cancelled := cancelled })) := by
    show Counted s (.read (.bytes bytes) :: Log.handOver (s.feed config bytes).2.tokens) _
    rw [← List.append_nil (Log.handOver _)]
    exact Counted.read ⟨cancelled, rfl⟩
  cases htokens : (s.feed config bytes).2.tokens with
  | nil => exact ⟨[], .read (.bytes bytes), by simp [log, htokens, Log.handOver], Or.inr hcounted⟩
  | cons t ts =>
    exact ⟨[.read (.bytes bytes)], .batch (t :: ts), by simp [log, htokens, Log.handOver], hcounted⟩

theorem Closes.read {bytes : List UInt8} {event : Event}
    (h : Closes (s.feed config bytes).1 log outcome event) :
    Closes s (.read (.bytes bytes) :: (Log.handOver (s.feed config bytes).2.tokens ++ log)) outcome
      event := by
  match event with
  | .read .interrupted => exact h
  | .read (.failed error) => exact h
  | .read (.bytes given) => exact Or.imp_right Counted.read h
  | .batch tokens => exact Counted.read h

/-- A log ends with an event that says how the stream ends. -/
theorem Runs.exists_closes (h : Runs config sink s log outcome) :
    ∃ before event, log = before ++ [event] ∧ Closes s log outcome event := by
  induction h with
  | interrupted _ ih =>
    obtain ⟨before, event, rfl, hcloses⟩ := ih
    refine ⟨.read .interrupted :: before, event, rfl, ?_⟩
    match event with
    | .read .interrupted => exact hcloses
    | .read (.failed error) => exact hcloses
    | .read (.bytes given) => exact hcloses
    | .batch tokens => exact hcloses
  | failed => exact ⟨[], _, rfl, rfl⟩
  | @refused _ _ fault _ => exact ⟨[], _, rfl, Or.inl ⟨fault, rfl⟩⟩
  | @broken s bytes => exact exists_closes_last config s bytes true
  | @finished s => exact exists_closes_last config s [] (s.feed config []).1.summary.cancelled
  | @more s bytes log outcome _ _ _ _ ih =>
    obtain ⟨before, event, rfl, hcloses⟩ := ih
    refine ⟨.read (.bytes bytes) :: (Log.handOver (s.feed config bytes).2.tokens ++ before), event,
      ?_, hcloses.read⟩
    rw [← List.append_assoc]
    rfl

/-- What a read completes are the first of the tokens that are to be completed, whatever bytes are
still to come. After the end of the input there are none. -/
theorem exists_rest_eq {given bytes : List UInt8} (hend : given = [] → bytes = [])
    (h : Awaits config s (given ++ bytes)) :
    ∃ more, (s.rest config (given ++ bytes)).map Token.detach =
      ((s.feed config given).2.tokens ++ more).map Token.detach := by
  by_cases hne : given = []
  · rw [hend hne, hne, List.append_nil]
    refine ⟨[], ?_⟩
    rw [List.append_nil]
    rfl
  · exact ⟨_, rest_feed h hne⟩

/-- The batches of a log are the first of the tokens that are to be completed, whatever bytes are
still to come. -/
theorem Runs.exists_rest_eq (h : Runs config sink s log outcome) {bytes : List UInt8}
    (hend : .bytes [] ∈ log.reads → bytes = [])
    (hawaits : Awaits config s (log.reads.flatMap Read.data ++ bytes)) :
    ∃ more, (s.rest config (log.reads.flatMap Read.data ++ bytes)).map Token.detach =
      (log.batches.flatten ++ more).map Token.detach := by
  induction h with
  | interrupted _ ih =>
    refine ih (fun hread => hend (List.mem_cons_of_mem _ hread)) hawaits
  | failed => exact ⟨_, rfl⟩
  | refused => exact ⟨_, rfl⟩
  | @broken s given =>
    simp only [Log.reads_read, Log.reads_handOver, Log.batches_read, Log.flatten_handOver,
      List.flatMap_singleton, Read.data] at hend hawaits ⊢
    exact State.exists_rest_eq (fun hempty => hend (by simp [hempty])) hawaits
  | @finished s =>
    simp only [Log.reads_read, Log.reads_handOver, Log.batches_read, Log.flatten_handOver,
      List.flatMap_singleton, Read.data] at hend hawaits ⊢
    exact State.exists_rest_eq (fun _ => hend List.mem_cons_self) hawaits
  | @more s given log outcome hmore _ _ _ ih =>
    simp only [Log.reads_read, Log.reads_append, Log.reads_handOver, List.nil_append,
      Log.batches_read, Log.batches_append, List.flatten_append, Log.flatten_handOver,
      List.flatMap_cons, List.append_assoc, Read.data] at hend hawaits ⊢
    obtain ⟨more, hrest⟩ := ih (fun hread => hend (List.mem_cons_of_mem _ hread))
      (Awaits.feed hawaits hmore)
    refine ⟨more, ?_⟩
    rw [rest_feed hawaits hmore, List.map_append, hrest, ← List.map_append]

end State

/-! ## Whole streams -/

/-- The stream of a source does what the log says, up to this outcome. -/
inductive Drives (config : Config) (options : Options) (sink : Sink) : Log → Outcome → Prop
  | refused (hsize : options.chunkSize = 0) :
    Drives config options sink [] ⟨[], .error .zeroChunkSize⟩
  | started {log : Log} {outcome : Outcome} (hsize : options.chunkSize ≠ 0)
    (h : (State.start options.encoding).Runs config sink log outcome) :
    Drives config options sink log outcome

variable {config : Config} {options : Options} {sink : Sink} {log : Log} {outcome : Outcome}

theorem exists_drives (config : Config) (options : Options) (sink : Sink) (reads : List Read) :
    ∃ log, Drives config options sink log (drive config options sink reads) ∧
      log.reads <+: reads ++ [.bytes []] := by
  rw [drive]
  split
  · next hsize => exact ⟨[], .refused hsize, List.nil_prefix⟩
  · next hsize =>
    obtain ⟨log, hruns, hreads⟩ := State.exists_runs config sink (.start options.encoding) reads
    exact ⟨log, .started hsize hruns, hreads⟩

theorem Drives.drive_eq (h : Drives config options sink log outcome) (later : List Read) :
    drive config options sink (log.reads ++ later) = outcome := by
  cases h with
  | refused hsize => rw [drive, if_pos hsize]
  | started hsize h => rw [drive, if_neg hsize, List.append_assoc, h.run_eq]

theorem Drives.batches_eq (h : Drives config options sink log outcome) :
    outcome.batches = log.batches ∧ ∀ tokens ∈ log.batches, tokens ≠ [] := by
  cases h with
  | refused => exact ⟨rfl, nofun⟩
  | started _ h => exact h.batches_eq

theorem Drives.nil_of_halts (h : Drives config options sink log outcome) {before after : Log}
    {event : Event} (hlog : log = before ++ event :: after)
    (hhalts : event.halts sink before.batches = true) :
    after = [] ∧ (State.start options.encoding).Closes log outcome event := by
  cases h with
  | refused => simp at hlog
  | started _ h =>
    cases h.nil_of_halts hlog hhalts
    obtain ⟨others, last, hlast, hcloses⟩ := h.exists_closes
    cases List.append_inj_right' (hlog.symm.trans hlast) rfl
    exact ⟨rfl, hcloses⟩

/-- Every input that starts with the bytes read starts with the tokens of all batches. -/
theorem Drives.exists_lex (h : Drives config options sink log outcome) {bytes : List UInt8}
    (hend : .bytes [] ∈ log.reads → bytes = [])
    (hfit : Text.size (textOf options.encoding (log.reads ++ [.bytes bytes])) ≤ maxOffset) :
    ∃ more, Token.sameAll (log.batches.flatten ++ more)
      (lex config (textOf options.encoding (log.reads ++ [.bytes bytes]))) = true := by
  cases h with
  | refused => exact ⟨_, Token.sameAll_refl _⟩
  | started _ h =>
    have hdata : (log.reads ++ [Read.bytes bytes]).flatMap Read.data =
        log.reads.flatMap Read.data ++ bytes := by
      simp [Read.data]
    have hlex := rest_start config options.encoding hfit
    have hawaits := start_awaits config options.encoding hfit
    rw [hdata] at hlex hawaits
    obtain ⟨more, hrest⟩ := h.exists_rest_eq hend hawaits
    refine ⟨more, Token.sameAll_iff.2 ?_⟩
    rw [← hrest, hlex]

/-- What can be relied on when a stream does what the log says, whatever ends it. -/
structure Reliable (config : Config) (options : Options) (sink : Sink) (log : Log)
    (outcome : Outcome) : Prop where
  drives : Drives config options sink log outcome
  /-- The outcome depends on the reads of the log only. -/
  unread : ∀ later, drive config options sink (log.reads ++ later) = outcome
  batches : outcome.batches = log.batches
  nonempty : ∀ tokens ∈ outcome.batches, tokens ≠ []
  /-- The error of a failed read is the result, and nothing is done after it. -/
  failed : ∀ (before : Log) error after, log = before ++ .read (.failed error) :: after →
    after = [] ∧ outcome.result = .error (.io error)
  /-- After a batch behind which the sink does not want to go on nothing is done, and the summary
  counts what was read and handed over. -/
  broken : ∀ (before : Log) tokens after, log = before ++ .batch tokens :: after →
    sink (before.batches ++ [tokens]).reverse = false →
    after = [] ∧ ∃ cancelled, outcome.result = .ok
      { bytes := (log.reads.flatMap Read.data).length
        reads := log.reads.countP Read.isBytes
        tokens := outcome.batches.flatten.length
        cancelled := cancelled }
  /-- The tokens are the first of each input that starts with the bytes read; if the end of the
  input has been read, there are no more bytes. -/
  initial : ∀ bytes : List UInt8, (.bytes [] ∈ log.reads → bytes = []) →
    Text.size (textOf options.encoding (log.reads ++ [.bytes bytes])) ≤ maxOffset →
    ∃ more, Token.sameAll (outcome.batches.flatten ++ more)
      (lex config (textOf options.encoding (log.reads ++ [.bytes bytes]))) = true

theorem Drives.reliable (h : Drives config options sink log outcome) :
    Reliable config options sink log outcome := by
  obtain ⟨hbatches, hne⟩ := h.batches_eq
  refine ⟨h, h.drive_eq, hbatches, ?_, ?_, ?_, ?_⟩
  · rw [hbatches]
    exact hne
  · intro before error after hlog
    exact h.nil_of_halts hlog rfl
  · intro before tokens after hlog hsink
    have hhalts : (Event.batch tokens).halts sink before.batches = true := by
      rw [Event.halts, hsink]
      rfl
    obtain ⟨hafter, cancelled, hresult⟩ := h.nil_of_halts hlog hhalts
    refine ⟨hafter, cancelled, hresult.trans ?_⟩
    rw [hbatches]
    simp [State.start]
  · intro bytes hend hfit
    rw [hbatches]
    exact h.exists_lex hend hfit

/-- Whatever ends a stream, it has a log of what it does that can be relied on. The reads of the log
are the first of those that the source has, and the tokens of its batches are the first of each
input that starts with the bytes of these reads. -/
theorem drive_reliable (config : Config) (options : Options) (sink : Sink) (reads : List Read) :
    ∃ log : Log, log.reads <+: reads ++ [.bytes []] ∧
      Reliable config options sink log (drive config options sink reads) := by
  obtain ⟨log, hdrives, hreads⟩ := exists_drives config options sink reads
  exact ⟨log, hreads, hdrives.reliable⟩

/-- The last batch need not start a longer input: the name that ends with the input is handed over,
and the same bytes with a letter after them are one longer name. -/
theorem drive_initial_at_end :
    let sink : Sink := fun _ => false
    let outcome := drive .default ⟨.utf8, 8⟩ sink [.bytes [0x61, 0x62]]
    outcome.batches ≠ [] ∧ sink outcome.batches.reverse = false ∧
      Text.size (textOf .utf8 [.bytes [0x61, 0x62], .bytes [0x63]]) ≤ maxOffset ∧
      ¬ ∃ more, Token.sameAll (outcome.batches.flatten ++ more)
        (lex .default (textOf .utf8 [.bytes [0x61, 0x62], .bytes [0x63]])) = true := by
  intro sink outcome
  have hinput : textOf .utf8 [.bytes [0x61, 0x62], .bytes [0x63]] = ['a', 'b', 'c'] := by
    decide +kernel
  have hbatches : outcome.batches.map (·.map Token.text) = [[['a', 'b']]] := by decide +kernel
  have hlex : (lex .default ['a', 'b', 'c']).map Token.text = [['a', 'b', 'c']] := by
    decide +kernel
  rw [hinput]
  refine ⟨?_, rfl, by decide, ?_⟩
  · intro hnil
    rw [hnil] at hbatches
    cases hbatches
  · rintro ⟨more, hsame⟩
    have hfirst : outcome.batches.flatten.map Token.text = [['a', 'b']] := by
      rw [List.map_flatten, hbatches]
      rfl
    have htexts := congrArg (List.map Token.text) (Token.sameAll_iff.1 hsame)
    simp only [List.map_map, Function.comp_def, Token.text_detach] at htexts
    rw [List.map_append, hfirst, hlex] at htexts
    cases htexts

end Stream

end TokenTree
