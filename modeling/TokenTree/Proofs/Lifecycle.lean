import TokenTree.Proofs.Session

/-!
# Sessions that end and start again

The last chunk ends an input whatever was open or held back (`Session.feed_final`): when no more
text can follow the scanner never waits, so all text is cut into pieces, and then the open blocks
are given up. From then on every chunk is refused, until the session is reset, and after that
nothing of the earlier inputs is left (`Session.Usage.ends_and_resets`).
-/

namespace TokenTree

/-- Giving up all open blocks leaves none. -/
theorem Nest.frames_finish (n : Nest) : n.finish.frames = [] := by
  have hunwind (tokens : List Token) (fs : List Frame) (inner : Option Token) :
      (unwind (fun _ => false) tokens fs inner).frames = [] := by
    induction fs generalizing inner with
    | nil => rfl
    | cons f fs ih =>
      rw [unwind, if_neg Bool.false_ne_true]
      exact ih _
  exact hunwind n.tokens n.frames none

namespace Session

variable {config : Config} {s : Session}

/-- The last chunk leaves nothing open and nothing held back. -/
theorem feed_final (h : AtRest config s) {chunk : Text}
    (hsize : s.offset + Text.size s.pending + Text.size chunk ≤ maxOffset) :
    ∃ tokens, s.feed config chunk true =
      (⟨.normal, [], [], s.offset + Text.size s.pending + Text.size chunk, none, true⟩,
        ⟨tokens, .complete⟩) := by
  obtain ⟨cuts, hscan, -, hpos⟩ := Scan.ofBuffer_scans config true s.offset
    ⟨some s.offset, s.pending ++ chunk⟩ (h.fits.append chunk)
  have htext := congrArg Text.size hscan.text_eq
  injection hscan.eq_end_of_final with hmode hrest hrun
  rw [Scan.stop, hrest, List.append_nil, ← hpos] at htext
  have hframes (ps : List Piece) : (grow s.frames true ps).frames = [] := Nest.frames_finish _
  rw [feed_eq_scan h true hsize, scan_eq]
  simp only [hframes, hmode, hrest, hrun, ← htext, Text.size_append, ← Nat.add_assoc]
  exact ⟨_, rfl⟩

/-- A chunk that comes after the last one is refused. -/
theorem feed_of_finished (h : s.finished = true) (config : Config) (chunk : Text) (final : Bool) :
    s.feed config chunk final = (s, ⟨[], .refused .sessionFinished⟩) := by
  rw [feed, if_pos h]

/-- A chunk that does not fit is refused. -/
theorem feed_of_unfit (h : s.finished = false) {chunk : Text}
    (hsize : maxOffset < s.offset + Text.size s.pending + Text.size chunk) (final : Bool) :
    s.feed config chunk final = (s, ⟨[], .refused .offsetOverflow⟩) := by
  rw [feed, if_neg (by simp [h]), if_pos hsize]

/-- What can be done with a session. -/
inductive Call where
  /-- The next chunk is fed; `final` marks the last one. -/
  | feed (chunk : Text) (final : Bool)
  /-- The session is made ready for another input. -/
  | reset

/-- A session with what it was used for. -/
structure Usage where
  session : Session
  /-- The text of all chunks of the present input that were not refused. -/
  fed : Text
  /-- The answers to all chunks, those of earlier inputs included. -/
  outputs : List Output

namespace Usage

/-- The usage of a session that was not used yet. -/
def start : Usage := ⟨.start, [], []⟩

/-- The usage after one more call. -/
def call (config : Config) (u : Usage) : Call → Usage
  | .feed chunk final =>
    let (session, output) := u.session.feed config chunk final
    let fed :=
      match output.status with
      | .refused _ => u.fed
      | _ => u.fed ++ chunk
    ⟨session, fed, u.outputs ++ [output]⟩
  | .reset => ⟨u.session.reset, [], u.outputs⟩

/-- The usage after more calls, one after the other. -/
def run (config : Config) (u : Usage) (calls : List Call) : Usage := calls.foldl (call config) u

/-- The usage with more answers before its own. -/
def behind (older : List Output) (u : Usage) : Usage := { u with outputs := older ++ u.outputs }

variable {u : Usage}

/-! ## Earlier answers -/

theorem call_behind (config : Config) (older : List Output) (u : Usage) (c : Call) :
    (u.behind older).call config c = (u.call config c).behind older := by
  cases c with
  | feed chunk final => simp only [call, behind, List.append_assoc]
  | reset => rfl

/-- Earlier answers have no part in what becomes of the calls to come. -/
theorem run_behind (config : Config) (older : List Output) (u : Usage) (calls : List Call) :
    (u.behind older).run config calls = (u.run config calls).behind older := by
  induction calls generalizing u with
  | nil => rfl
  | cons c calls ih => rw [run, List.foldl_cons, call_behind, ← run, ih, run, run, List.foldl_cons]

/-! ## What every call keeps -/

/-- As long as the last chunk was not fed the session is at rest; and what is held back ends where
the text fed does. -/
structure Kept (config : Config) (u : Usage) : Prop where
  rests : u.session.finished = false → AtRest config u.session
  size : u.session.offset + Text.size u.session.pending = Text.size u.fed

theorem start_kept (config : Config) : Kept config start := ⟨fun _ => start_atRest config, rfl⟩

theorem call_of_refused {chunk : Text} {final : Bool} {fault : Fault}
    (h : u.session.feed config chunk final = (u.session, ⟨[], .refused fault⟩)) :
    u.call config (.feed chunk final) =
      { u with outputs := u.outputs ++ [⟨[], .refused fault⟩] } := by
  simp only [call, h]

theorem call_final (h : Kept config u) (hopen : u.session.finished = false) {chunk : Text}
    (hsize : Text.size (u.fed ++ chunk) ≤ maxOffset) :
    ∃ tokens, u.call config (.feed chunk true) =
      ⟨⟨.normal, [], [], Text.size (u.fed ++ chunk), none, true⟩, u.fed ++ chunk,
        u.outputs ++ [⟨tokens, .complete⟩]⟩ := by
  rw [Text.size_append, ← h.size] at hsize ⊢
  obtain ⟨tokens, hfeed⟩ := feed_final (h.rests hopen) hsize
  exact ⟨tokens, by simp only [call, hfeed]⟩

theorem call_of_taken {chunk : Text} {final : Bool}
    (h : ∀ fault, (u.session.feed config chunk final).2.status ≠ .refused fault) :
    u.call config (.feed chunk final) =
      ⟨(u.session.feed config chunk final).1, u.fed ++ chunk,
        u.outputs ++ [(u.session.feed config chunk final).2]⟩ := by
  -- the hypothesis is what rules out the branch of refused chunks
  simp only [call]

theorem Kept.feed_open (h : Kept config u) (hopen : u.session.finished = false) {chunk : Text}
    (hsize : u.session.offset + Text.size u.session.pending + Text.size chunk ≤ maxOffset) :
    Kept config (u.call config (.feed chunk false)) := by
  have hrests := h.rests hopen
  have hstatus : ∀ fault, (u.session.feed config chunk false).2.status ≠ .refused fault := by
    intro fault
    rw [feed_eq_scan hrests false hsize, scan_eq]
    exact status_settle false _ _ fault
  rw [call_of_taken hstatus]
  refine ⟨fun _ => feed_atRest hrests chunk, ?_⟩
  rw [Text.size_append, ← h.size, ← size_feed hrests hsize]

theorem Kept.call (h : Kept config u) (c : Call) : Kept config (u.call config c) := by
  cases c with
  | reset => exact ⟨fun _ => start_atRest config, rfl⟩
  | feed chunk final =>
    cases hfinished : u.session.finished with
    | true =>
      rw [call_of_refused (feed_of_finished hfinished config chunk final)]
      exact ⟨h.rests, h.size⟩
    | false =>
      by_cases hsize : u.session.offset + Text.size u.session.pending + Text.size chunk ≤ maxOffset
      · cases final with
        | false => exact h.feed_open hfinished hsize
        | true =>
          rw [h.size, ← Text.size_append] at hsize
          obtain ⟨tokens, hcall⟩ := call_final h hfinished hsize
          rw [hcall]
          exact ⟨nofun, rfl⟩
      · rw [call_of_refused (feed_of_unfit hfinished (Nat.lt_of_not_le hsize) final)]
        exact ⟨h.rests, h.size⟩

theorem Kept.run (h : Kept config u) (calls : List Call) : Kept config (u.run config calls) := by
  induction calls generalizing u with
  | nil => exact h
  | cons c calls ih => exact ih (h.call c)

/-! ## The end of an input -/

/-- After the last chunk all chunks are refused. -/
theorem run_of_finished (h : u.session.finished = true) (config : Config)
    (chunks : List (Text × Bool)) :
    u.run config (chunks.map fun (chunk, final) => .feed chunk final) =
      { u with outputs := u.outputs ++ chunks.map fun _ => ⟨[], .refused .sessionFinished⟩ } := by
  induction chunks generalizing u with
  | nil => simp [run]
  | cons next chunks ih =>
    obtain ⟨chunk, final⟩ := next
    have hcall := call_of_refused (feed_of_finished h config chunk final)
    have hrest := ih (u := u.call config (.feed chunk final)) (by rw [hcall]; exact h)
    rw [List.map_cons, run, List.foldl_cons, ← run, hrest, hcall]
    simp only [List.map_cons, List.append_assoc, List.singleton_append]

/-- However a session was used, the last chunk of an input ends it: nothing is open or held back,
and the offset is the number of bytes fed. From then on all chunks are refused and change nothing.
And a session that is reset behaves on all calls to come as one that was not used yet. -/
theorem ends_and_resets (config : Config) (history : List Call) :
    let u := start.run config history
    (u.session.finished = false → ∀ chunk,
      let ended := u.call config (.feed chunk true)
      if maxOffset < Text.size (u.fed ++ chunk) then
        ended = { u with outputs := u.outputs ++ [⟨[], .refused .offsetOverflow⟩] }
      else
        (∃ tokens, ended =
          { session :=
              { mode := .normal, frames := [], pending := []
                offset := Text.size (u.fed ++ chunk), run := none, finished := true }
            fed := u.fed ++ chunk
            outputs := u.outputs ++ [⟨tokens, .complete⟩] }) ∧
        ∀ (other : Config) (chunks : List (Text × Bool)),
          ended.run other (chunks.map fun (chunk, final) => .feed chunk final) =
            { ended with
              outputs := ended.outputs ++ chunks.map fun _ => ⟨[], .refused .sessionFinished⟩ }) ∧
    ∀ other calls, (u.call config .reset).run other calls =
      (start.run other calls).behind u.outputs := by
  intro u
  have hu : Kept config u := (start_kept config).run history
  refine ⟨fun hopen chunk => ?_, fun other calls => ?_⟩
  · intro ended
    split
    · next hover =>
      rw [Text.size_append, ← hu.size] at hover
      exact call_of_refused (feed_of_unfit hopen hover true)
    · next hfits =>
      obtain ⟨tokens, hended⟩ := call_final hu hopen (Nat.le_of_not_lt hfits)
      have hended : ended = _ := hended
      refine ⟨⟨tokens, hended⟩, fun other chunks => run_of_finished ?_ other chunks⟩
      rw [hended]
  · have hreset : u.call config .reset = start.behind u.outputs := by
      show (⟨.start, [], u.outputs⟩ : Usage) = ⟨.start, [], u.outputs ++ []⟩
      rw [List.append_nil]
    rw [hreset, run_behind]

/-- A session that was used before, in the middle of a block and of a string. -/
theorem ends_and_resets_string :
    let history : List Call := [.feed ['a'] true, .reset, .feed ['(', '"', 'b'] false]
    let u := start.run .default history
    u.session.finished = false ∧ ¬ maxOffset < Text.size (u.fed ++ ['\\']) ∧
      ∃ tokens, u.call .default (.feed ['\\'] true) =
        ⟨⟨.normal, [], [], 4, none, true⟩, u.fed ++ ['\\'],
          u.outputs ++ [⟨tokens, .complete⟩]⟩ := by
  intro history u
  have hopen : u.session.finished = false := by decide +kernel
  have hfits : ¬ maxOffset < Text.size (u.fed ++ ['\\']) := by decide +kernel
  have hends := (ends_and_resets .default history).1 hopen ['\\']
  rw [if_neg hfits] at hends
  exact ⟨hopen, hfits, hends.1⟩

end Usage

end Session

end TokenTree
