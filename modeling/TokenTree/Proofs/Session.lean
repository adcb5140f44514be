import TokenTree.Proofs.Detach
import TokenTree.Proofs.Nesting
import TokenTree.Session

/-!
# Inputs in chunks

However an input is cut into chunks, the tokens are those of the whole input
(`Session.feedAll_eq_lex`), and at every time between: two chunks fed one after the other leave the
session, and have completed the tokens, that the two as one chunk would (`Session.feed_feed`).

Between two chunks a session is at rest: the text held back is one at which the scanner waits, in
the mode that the session remembers (`Session.AtRest`). A session at rest scans what was held back
and a new chunk as the scanner would go on in one text of both. The shortcut for runs gives what the
scan would (`Session.feed_eq_scan`), and to resume a session under the configuration that it was fed
under changes nothing (`Session.Reachable.resume_eq`).
-/

namespace TokenTree

namespace Session

/-- The sessions that chunks lead to, none of which was the last. -/
inductive Reachable (config : Config) : Session → Prop
  | start : Reachable config .start
  | feed {s : Session} (chunk : Text) (h : Reachable config s) :
    Reachable config (s.feed config chunk false).1

/-- The session with all its lexemes detached. -/
def detach (s : Session) : Session := { s with frames := s.frames.map Frame.detach }

/-- Feeds chunks one after the other, the last one as the last. -/
def feedAll (config : Config) (s : Session) : List Text → List Output
  | [] => []
  | [chunk] => [(s.feed config chunk true).2]
  | chunk :: chunks =>
    (s.feed config chunk false).2 :: feedAll config (s.feed config chunk false).1 chunks

/-! ## The answer to a chunk -/

/-- Two answers agree in all but the buffers of lexemes. -/
structure Agree (a b : Session × Output) : Prop where
  session : a.1.detach = b.1.detach
  tokens : a.2.tokens.map Token.detach = b.2.tokens.map Token.detach
  status : a.2.status = b.2.status

theorem Agree.trans {a b c : Session × Output} (h : Agree a b) (h' : Agree b c) : Agree a c :=
  ⟨h.session.trans h'.session, h.tokens.trans h'.tokens, h.status.trans h'.status⟩

theorem Agree.symm {a b : Session × Output} (h : Agree a b) : Agree b a :=
  ⟨h.session.symm, h.tokens.symm, h.status.symm⟩

theorem isSettled_detach (s : Session) : s.detach.isSettled = s.isSettled := by
  obtain ⟨mode, frames, pending, offset, run, finished⟩ := s
  cases frames <;> rfl

theorem settle_agree {final : Bool} {tokens tokens' : List Token} {s s' : Session}
    (hs : s.detach = s'.detach) (ht : tokens.map Token.detach = tokens'.map Token.detach) :
    Agree (settle final tokens s) (settle final tokens' s') := by
  have hsettled : s.isSettled = s'.isSettled := by
    rw [← isSettled_detach s, ← isSettled_detach s', hs]
  unfold settle
  cases final with
  | true =>
    refine ⟨?_, ht, rfl⟩
    have hfinished (s : Session) :
        ({ s with finished := true } : Session).detach = { s.detach with finished := true } := rfl
    simp only [if_true, hfinished, hs]
  | false =>
    refine ⟨hs, ht, ?_⟩
    simp only [Bool.false_eq_true, if_false, hsettled]

/-- The tree under construction that pieces, which may be the last, make of open blocks. -/
def grow (frames : List Frame) (final : Bool) (ps : List Piece) : Nest :=
  let nest := ps.foldl Nest.push ⟨frames, []⟩
  if final then nest.finish else nest

theorem grow_congr {ps ps' : List Piece} (h : ps.map Piece.detach = ps'.map Piece.detach)
    (frames : List Frame) (final : Bool) :
    (grow frames final ps).detach = (grow frames final ps').detach := by
  have hfold := Nest.foldl_push_congr (n := ⟨frames, []⟩) rfl h
  cases final with
  | true => exact Nest.finish_congr hfold
  | false => exact hfold

/-- The tree under construction after these pieces of the text held back and a chunk. -/
def grown (s : Session) (final : Bool) (cuts : List Cut) : Nest :=
  grow s.frames final (layout s.offset cuts)

/-- The answer to a chunk that is cut into these pieces. -/
def answer (s : Session) (final : Bool) (cuts : List Cut) (stop : Stop) : Session × Output :=
  settle final (s.grown final cuts).tokens.reverse
    { s with
      mode := stop.mode
      frames := (s.grown final cuts).frames
      pending := stop.rest
      offset := s.offset + Text.size (cuts.flatMap Cut.text)
      run := stop.run }

theorem scan_eq (config : Config) (s : Session) (chunk : Text) (final : Bool) :
    s.scan config chunk final =
      let scan := Scan.ofBuffer config final s.offset s.mode ⟨some s.offset, s.pending ++ chunk⟩
      settle final (grow s.frames final scan.pieces).tokens.reverse
        { s with
          mode := scan.mode
          frames := (grow s.frames final scan.pieces).frames
          pending := scan.cursor.rest
          offset := s.offset + scan.cursor.pos
          run := scan.run } := rfl

/-- What a chunk does is given by the pieces that it and the text held back are cut into. -/
theorem scan_agree {config : Config} {s : Session} (fits : s.mode.Fits config s.pending)
    {chunk : Text} {final : Bool} {cuts : List Cut} {stop : Stop}
    (h : Scans config final s.mode (s.pending ++ chunk) cuts stop) :
    Agree (s.scan config chunk final) (s.answer final cuts stop) := by
  obtain ⟨cuts', hscan, hpieces, hpos⟩ := Scan.ofBuffer_scans config final s.offset
    ⟨some s.offset, s.pending ++ chunk⟩ (fits.append chunk)
  obtain ⟨rfl, hstop⟩ := hscan.det h
  subst hstop
  have hlayout : (layout s.offset cuts').map Piece.detach = layout s.offset cuts' := by
    rw [← hpieces, List.map_map]
    exact congrArg (List.map · _) (funext fun p => by simp [Piece.detach])
  have hnest := grow_congr (hpieces.trans hlayout.symm) s.frames final
  obtain ⟨hframes, htokens⟩ := Nest.detach_inj.1 hnest
  rw [scan_eq, answer, grown]
  refine settle_agree ?_ ?_
  · simp only [detach, hframes, hpos, Scan.stop]
  · simp only [List.map_reverse, htokens]

/-! ## Runs that go on -/

/-- A run that is held back stands between pieces and is all of the text. -/
theorem munch_of_scans {config : Config} {mode mode' : Mode} {rest rest' : Text} {run : Run}
    (h : Scans config false mode rest [] ⟨mode', rest', some run⟩) :
    mode = .normal ∧ config.commentAt rest false = .absent ∧
      config.operatorAt rest false = .absent ∧
      ∃ word, config.symbols.munch rest = some (.run run, word, []) := by
  cases h with
  | wait hstep =>
    by_cases hmode : mode = .normal
    · subst hmode
      exact ⟨rfl, normal_wait_run hstep⟩
    · cases run_eq_none_of_inside hmode hstep
  | enter hstep hscan =>
    have hmode := (step_enter hstep).2.1
    cases hscan with
    | wait hstep' => cases run_eq_none_of_inside hmode hstep'
    | enter hstep' _ => exact absurd (step_enter hstep').1 hmode

/-- A run that is held back and goes on in the next chunk is held back again. -/
theorem scans_run {config : Config} {mode : Mode} {rest chunk word : Text} {run : Run}
    (h : Scans config false mode rest [] ⟨mode, rest, some run⟩)
    (hm : config.symbols.munch chunk = some (.run run, word, [])) :
    Scans config false mode (rest ++ chunk) [] ⟨mode, rest ++ chunk, some run⟩ := by
  obtain ⟨rfl, hc, ho, word', hm'⟩ := munch_of_scans h
  have hc' : config.commentAt (rest ++ chunk) false = .absent :=
    PrefixMatch.find_append_absent hc chunk false
  have ho' : config.operatorAt (rest ++ chunk) false = .absent :=
    PrefixMatch.find_append_absent ho chunk false
  have hruled : Step.Ruled config false (rest ++ chunk) (.wait .normal (some run)) :=
    .segmentOpen _ _ _ hc' ho' (SymbolSet.munch_run_append hm' hm) rfl
  exact .wait hruled.eq.symm

/-! ## Sessions at rest -/

/-- Between two chunks the scanner waits for more of what was held back. -/
structure AtRest (config : Config) (s : Session) : Prop where
  fits : s.mode.Fits config s.pending
  rests : Scans config false s.mode s.pending [] ⟨s.mode, s.pending, s.run⟩
  unfinished : s.finished = false

variable {config : Config} {s : Session}

theorem start_atRest (config : Config) : AtRest config .start := ⟨trivial, .done rfl, rfl⟩

/-- The chunk is one run, of the kind that is remembered. -/
theorem extendsRun_eq_true_iff {chunk : Text} : s.extendsRun config chunk = true ↔
    ∃ run word, s.run = some run ∧ config.symbols.munch chunk = some (.run run, word, []) := by
  unfold extendsRun
  split
  · next run cls word hrun hm =>
    rw [hrun, hm]
    simp [eq_comm]
  · next hno =>
    refine iff_of_false Bool.false_ne_true ?_
    rintro ⟨run, word, hrun, hm⟩
    exact hno run _ word hrun hm

/-- The shortcut for runs gives what the scan would. -/
theorem feed_eq_scan (h : AtRest config s) {chunk : Text} (final : Bool)
    (hsize : s.offset + Text.size s.pending + Text.size chunk ≤ maxOffset) :
    s.feed config chunk final = s.scan config chunk final := by
  unfold feed
  rw [if_neg (by simp [h.unfinished]), if_neg (Nat.not_lt.2 hsize)]
  split
  · next hshort =>
    obtain ⟨hfinal, hextends⟩ := Bool.and_eq_true_iff.1 hshort
    have hfinal : final = false := by simpa using hfinal
    subst hfinal
    obtain ⟨run, word, hrun, hm⟩ := extendsRun_eq_true_iff.1 hextends
    have hrests := h.rests
    rw [hrun] at hrests
    have hgoes := scans_run hrests hm
    obtain ⟨cuts, hscan, hpieces, hpos⟩ := Scan.ofBuffer_scans config false s.offset
      ⟨some s.offset, s.pending ++ chunk⟩ (h.fits.append chunk)
    obtain ⟨rfl, hstop⟩ := hscan.det hgoes
    have hnil := List.map_eq_nil_iff.1 hpieces
    injection hstop with hmode hrest hrun'
    simp only [scan, hnil, hmode, hrest, hrun', hpos, hrun]
    rfl
  · rfl

/-- A scan leaves a session at rest. -/
theorem scan_atRest (h : AtRest config s) (chunk : Text) :
    AtRest config (s.scan config chunk false).1 := by
  have fits := h.fits.append chunk
  obtain ⟨cuts, hscan, -, -⟩ := Scan.ofBuffer_scans config false s.offset
    ⟨some s.offset, s.pending ++ chunk⟩ fits
  exact ⟨hscan.fits_stop fits, hscan.again fits, h.unfinished⟩

/-- A chunk leaves a session at rest. -/
theorem feed_atRest (h : AtRest config s) (chunk : Text) :
    AtRest config (s.feed config chunk false).1 := by
  by_cases hsize : s.offset + Text.size s.pending + Text.size chunk ≤ maxOffset
  · rw [feed_eq_scan h false hsize]
    exact scan_atRest h chunk
  · rw [feed, if_neg (by simp [h.unfinished]), if_pos (Nat.lt_of_not_le hsize)]
    exact h

theorem Reachable.atRest (h : Reachable config s) : AtRest config s := by
  induction h with
  | start => exact start_atRest config
  | feed chunk _ ih => exact feed_atRest ih chunk

/-- Under the configuration that a session was fed under it goes on as it is. -/
theorem Reachable.resume_eq (h : Reachable config s) : s.resume config = some s := by
  have fits := h.atRest.fits
  obtain ⟨mode, frames, pending, offset, run, finished⟩ := s
  cases mode with
  | blockComment style close scanned =>
    obtain ⟨⟨start, hstyle⟩, -⟩ := fits
    simp [resume, hstyle]
  | _ => rfl

/-- A session at rest answers to the pieces that the text held back and the chunk are cut into. -/
theorem exists_answer (h : AtRest config s) {chunk : Text} (final : Bool)
    (hsize : s.offset + Text.size s.pending + Text.size chunk ≤ maxOffset) :
    ∃ cuts stop, Scans config final s.mode (s.pending ++ chunk) cuts stop ∧
      Agree (s.feed config chunk final) (s.answer final cuts stop) := by
  obtain ⟨cuts, hscan, -, -⟩ := Scan.ofBuffer_scans config final s.offset
    ⟨some s.offset, s.pending ++ chunk⟩ (h.fits.append chunk)
  refine ⟨cuts, _, hscan, ?_⟩
  rw [feed_eq_scan h final hsize]
  exact scan_agree h.fits hscan

/-! ## Two chunks as one -/

def after (older : List Token) (a : Session × Output) : Session × Output :=
  (a.1, ⟨older ++ a.2.tokens, a.2.status⟩)

theorem tokens_settle (final : Bool) (tokens : List Token) (s : Session) :
    (settle final tokens s).2.tokens = tokens := by cases final <;> rfl

theorem status_settle (final : Bool) (tokens : List Token) (s : Session) (fault : Fault) :
    (settle final tokens s).2.status ≠ .refused fault := by
  cases final with
  | true => exact nofun
  | false =>
    simp only [settle, Bool.false_eq_true, if_false]
    split <;> exact nofun

theorem after_settle (older tokens : List Token) (final : Bool) (s : Session) :
    after older (settle final tokens s) = settle final (older ++ tokens) s := by
  cases final <;> rfl

theorem Agree.after {a b : Session × Output} {older older' : List Token} (h : Agree a b)
    (ho : older.map Token.detach = older'.map Token.detach) :
    Agree (after older a) (after older' b) :=
  ⟨h.session, by simp only [Session.after, List.map_append, ho, h.tokens], h.status⟩

/-- The tree after the pieces of two chunks is that after the pieces of the second, but for the
tokens that the first completed. -/
theorem grown_append {mid : Session} {cuts : List Cut}
    (hoffset : mid.offset = s.offset + Text.size (cuts.flatMap Cut.text))
    (hframes : mid.frames.map Frame.detach = (s.grown false cuts).frames.map Frame.detach)
    (final : Bool) (cuts' : List Cut) :
    (s.grown final (cuts ++ cuts')).detach =
      ((mid.grown final cuts').onto (s.grown false cuts).tokens).detach := by
  have hmid : ((⟨mid.frames, []⟩ : Nest).onto (s.grown false cuts).tokens).detach =
      (s.grown false cuts).detach := Nest.detach_inj.2 ⟨hframes, rfl⟩
  have hfold : ((layout s.offset (cuts ++ cuts')).foldl Nest.push ⟨s.frames, []⟩).detach =
      (((layout mid.offset cuts').foldl Nest.push ⟨mid.frames, []⟩).onto
        (s.grown false cuts).tokens).detach := by
    rw [layout_append, ← hoffset, List.foldl_append, ← Nest.foldl_push_onto]
    exact Nest.foldl_push_congr hmid.symm rfl
  cases final with
  | false => exact hfold
  | true =>
    have hfinish := Nest.finish_congr hfold
    rw [Nest.finish_onto] at hfinish
    exact hfinish

theorem answer_append {mid : Session} {cuts : List Cut} {stop : Stop}
    (hmid : mid.detach = (s.answer false cuts stop).1.detach) (final : Bool) (cuts' : List Cut)
    (stop' : Stop) :
    Agree (after (s.answer false cuts stop).2.tokens (mid.answer final cuts' stop'))
      (s.answer final (cuts ++ cuts') stop') := by
  injection hmid with _ hframes _ hoffset _ hfinished
  have hoffset : mid.offset = s.offset + Text.size (cuts.flatMap Cut.text) := hoffset
  have hfinished : mid.finished = s.finished := hfinished
  obtain ⟨hgrown, htokens⟩ := Nest.detach_inj.1 (grown_append hoffset hframes final cuts')
  have hframes' : (mid.grown final cuts').frames.map Frame.detach =
      (s.grown final (cuts ++ cuts')).frames.map Frame.detach := hgrown.symm
  rw [answer, tokens_settle, answer, after_settle, answer]
  refine settle_agree ?_ ?_
  · simp only [detach, hframes', hfinished, hoffset, List.flatMap_append, Text.size_append,
      Nat.add_assoc]
  · rw [← List.reverse_append, List.map_reverse, List.map_reverse, htokens]
    rfl

theorem size_feed (h : AtRest config s) {chunk : Text}
    (hsize : s.offset + Text.size s.pending + Text.size chunk ≤ maxOffset) :
    (s.feed config chunk false).1.offset + Text.size (s.feed config chunk false).1.pending =
      s.offset + Text.size s.pending + Text.size chunk := by
  obtain ⟨cuts, stop, hscan, hagree⟩ := exists_answer h false hsize
  injection hagree.session with _ _ hpending hoffset _ _
  have htext := congrArg Text.size hscan.text_eq
  rw [hpending, hoffset]
  simp only [Text.size_append, answer, settle, Bool.false_eq_true, if_false] at htext ⊢
  omega

/-- Two chunks fed one after the other do what both do as one. -/
theorem feed_append (h : AtRest config s) {chunk chunk' : Text} (final : Bool)
    (hsize : s.offset + Text.size s.pending + Text.size (chunk ++ chunk') ≤ maxOffset) :
    Agree
      (after (s.feed config chunk false).2.tokens
        ((s.feed config chunk false).1.feed config chunk' final))
      (s.feed config (chunk ++ chunk') final) := by
  have hsize₂ :
      s.offset + Text.size s.pending + Text.size chunk + Text.size chunk' ≤ maxOffset := by
    rw [Text.size_append, ← Nat.add_assoc] at hsize
    exact hsize
  have hsize₁ : s.offset + Text.size s.pending + Text.size chunk ≤ maxOffset := by omega
  have hmid := feed_atRest h chunk
  have hmidSize := size_feed h hsize₁
  obtain ⟨cuts, stop, hscan, hfirst⟩ := exists_answer h false hsize₁
  generalize s.feed config chunk false = first at hmid hmidSize hfirst ⊢
  obtain ⟨cuts', stop', hscan', hsecond⟩ := exists_answer hmid final (hmidSize ▸ hsize₂)
  obtain ⟨whole, stop'', hscan'', hwhole⟩ := exists_answer h final hsize
  -- the second scan goes on where the first came to rest
  injection hfirst.session with hmode _ hpending _ _ _
  have hgoes : Scans config final stop.mode (stop.rest ++ chunk') cuts' stop' := by
    have hmode : first.1.mode = stop.mode := hmode
    have hpending : first.1.pending = stop.rest := hpending
    rw [← hmode, ← hpending]
    exact hscan'
  have hboth := Scans.append (h.fits.append chunk) hscan hgoes
  rw [List.append_assoc] at hboth
  obtain ⟨rfl, rfl⟩ := hboth.det hscan''
  have hanswer := answer_append hfirst.session final cuts' stop'
  exact ((hsecond.after hfirst.tokens).trans hanswer).trans hwhole.symm

/-- Splitting a chunk changes nothing: however far an input came, two chunks fed one after the other
complete the same tokens, leave the same of the input and leave the session in the same state as
both do as one. -/
theorem feed_feed (h : Reachable config s) (chunk chunk' : Text) (final : Bool)
    (hsize : s.offset + Text.size s.pending + Text.size (chunk ++ chunk') ≤ maxOffset) :
    let first := s.feed config chunk false
    let second := first.1.feed config chunk' final
    let whole := s.feed config (chunk ++ chunk') final
    Token.sameAll (first.2.tokens ++ second.2.tokens) whole.2.tokens = true ∧
      second.2.status = whole.2.status ∧ second.1.detach = whole.1.detach := by
  intro first second whole
  have hagree := feed_append h.atRest final hsize
  exact ⟨Token.sameAll_iff.2 hagree.tokens, hagree.status, hagree.session⟩

/-- A block comment that the session is in, and whose closing delimiter the two chunks share. -/
theorem feed_feed_comment :
    let s := (start.feed .default ['(', '/', '*'] false).1
    let first := s.feed .default ['a', '*'] false
    let second := first.1.feed .default ['/', '('] true
    let whole := s.feed .default ['a', '*', '/', '('] true
    Reachable .default s ∧
      s.offset + Text.size s.pending + Text.size (['a', '*'] ++ ['/', '(']) ≤ maxOffset ∧
      Token.sameAll (first.2.tokens ++ second.2.tokens) whole.2.tokens = true ∧
      second.2.status = whole.2.status ∧ second.1.detach = whole.1.detach :=
  have hreach : Reachable .default (start.feed .default ['(', '/', '*'] false).1 := .feed _ .start
  ⟨hreach, by decide, feed_feed hreach ['a', '*'] ['/', '('] true (by decide)⟩

/-! ## Whole inputs -/

theorem feedAll_cons (config : Config) (s : Session) (chunk : Text) {chunks : List Text}
    (h : chunks ≠ []) : s.feedAll config (chunk :: chunks) =
      (s.feed config chunk false).2 :: feedAll config (s.feed config chunk false).1 chunks := by
  cases chunks with
  | nil => exact absurd rfl h
  | cons next chunks => rfl

/-- The chunks of the rest of an input do what the rest does as one chunk. -/
theorem feedAll_agree {chunks : List Text} (hne : chunks ≠ []) (h : AtRest config s)
    (hsize : s.offset + Text.size s.pending + Text.size chunks.flatten ≤ maxOffset) :
    ((s.feedAll config chunks).flatMap Output.tokens).map Token.detach =
        (s.feed config chunks.flatten true).2.tokens.map Token.detach ∧
      (s.feedAll config chunks).getLast?.map Output.status =
        some (s.feed config chunks.flatten true).2.status := by
  induction chunks generalizing s with
  | nil => exact absurd rfl hne
  | cons chunk chunks ih =>
    cases chunks with
    | nil => simp [feedAll]
    | cons next chunks =>
      have hmore : next :: chunks ≠ [] := by simp
      rw [List.flatten_cons] at hsize ⊢
      have hsize' := hsize
      rw [Text.size_append] at hsize'
      have hfirst : s.offset + Text.size s.pending + Text.size chunk ≤ maxOffset := by omega
      have hmidSize := size_feed h hfirst
      obtain ⟨htokens, hstatus⟩ := ih hmore (feed_atRest h chunk) (by omega)
      have hagree := feed_append h true hsize
      rw [feedAll_cons config s chunk hmore]
      constructor
      · rw [List.flatMap_cons, List.map_append, htokens, ← hagree.tokens]
        simp only [after, List.map_append]
      · obtain ⟨last, hlast, hlastStatus⟩ := Option.map_eq_some_iff.1 hstatus
        rw [List.getLast?_cons, hlast, ← hagree.status]
        exact congrArg some hlastStatus

/-- The tokens of an input are the same however it is cut into chunks. -/
theorem feedAll_eq_lex (config : Config) {chunks : List Text} (hne : chunks ≠ [])
    (hsize : Text.size chunks.flatten ≤ maxOffset) :
    Token.sameAll ((start.feedAll config chunks).flatMap Output.tokens)
        (lex config chunks.flatten) = true ∧
      (start.feedAll config chunks).getLast?.map Output.status = some .complete := by
  have hstart : start.offset + Text.size start.pending + Text.size chunks.flatten ≤ maxOffset := by
    simpa [start] using hsize
  obtain ⟨htokens, hstatus⟩ := feedAll_agree hne (start_atRest config) hstart
  rw [feed_eq_scan (start_atRest config) true hstart] at htokens hstatus
  exact ⟨Token.sameAll_iff.2 htokens, hstatus⟩

/-- A number, a line break and a block, all of which are cut. -/
theorem feedAll_eq_lex_cuts :
    let chunks : List Text := [['(', '1'], ['.', '5', '\r'], [], ['\n', ')']]
    chunks ≠ [] ∧ Text.size chunks.flatten ≤ maxOffset ∧
      Token.sameAll ((start.feedAll .default chunks).flatMap Output.tokens)
          (lex .default chunks.flatten) = true ∧
        (start.feedAll .default chunks).getLast?.map Output.status = some .complete :=
  ⟨by decide, by decide, feedAll_eq_lex .default (by decide) (by decide)⟩

end Session

end TokenTree
