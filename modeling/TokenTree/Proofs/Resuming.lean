import TokenTree.Proofs.Comments
import TokenTree.Proofs.Lifecycle
import TokenTree.Proofs.Strings

/-!
# What a session remembers

Between two chunks a session remembers where in the text held back to search on. All of it follows
from that text alone: it is what a scan of the text held back comes to that starts between pieces
(`Session.Reachable.fresh`), however many chunks brought the text and wherever they were cut. So
two sessions that hold back the same text remember the same (`Session.Reachable.remembered`).

Such a scan cuts nothing off. It waits at once, or it enters one string or comment and waits in it.
What the state says of the text is read off these two steps (`Session.described_of_reachable`).
-/

namespace TokenTree

/-! ## Reading on -/

/-- What is behind a part of the text that begins no earlier than another part ends is behind that,
too. -/
theorem Text.exists_between {s t u v : Text} (h : s ++ t = u ++ v) (hle : size s ≤ size u) :
    ∃ mid, u = s ++ mid ∧ t = mid ++ v := by
  rcases List.append_eq_append_iff.1 h with ⟨mid, hu, ht⟩ | ⟨mid, rfl, rfl⟩
  · exact ⟨mid, hu, ht⟩
  · obtain rfl : mid = [] := by
      by_contra hmid
      have hpos := size_pos hmid
      rw [size_append] at hle
      omega
    exact ⟨[], by rw [List.append_nil, List.append_nil], rfl⟩

theorem getLast?_cons_iff_of_ne {α : Type} {x a : α} (l : List α) (h : a ≠ x) :
    (a :: l).getLast? = some x ↔ l.getLast? = some x := by
  cases l with
  | nil => simpa using h
  | cons b l => rw [List.getLast?_cons_cons]

namespace Step

open Text (signs signs_escape signs_plain)

/-- Where a string goes on beyond the text, the next character is escaped exactly if the last sign
is a backslash by itself. -/
theorem escaped_of_findQuote {q : Char} {escaped : Bool} (t : Text) {count : Nat}
    (h : findQuote q false count t = .unfinished escaped) :
    escaped = true ↔ (signs t).getLast? = some ['\\'] := by
  fun_induction signs t generalizing count with
  | case1 =>
    cases h
    exact iff_of_false Bool.false_ne_true (by simp)
  | case2 c r ih =>
    have hstep : findQuote q false count ('\\' :: c :: r) =
        findQuote q false (count + 1 + 1) r := by
      simp only [findQuote, if_true, Bool.false_eq_true, if_false]
    rw [hstep] at h
    rw [getLast?_cons_iff_of_ne _ (by simp)]
    exact ih h
  | case3 c r hlast ih =>
    by_cases hc : c = '\\'
    · -- a backslash with nothing behind it
      subst hc
      obtain rfl : r = [] := by
        cases r with
        | nil => rfl
        | cons d r => exact absurd rfl (hlast d r rfl)
      cases h
      exact iff_of_true rfl rfl
    · have hquote : c ≠ q := by
        rintro rfl
        simp [findQuote, hc] at h
      have hstep : findQuote q false count (c :: r) = findQuote q false (count + 1) r := by
        simp [findQuote, hc, hquote]
      rw [hstep] at h
      rw [getLast?_cons_iff_of_ne _ (by simpa using hc)]
      exact ih h

/-- What the scanner enters is a comment that starts there or a string. -/
theorem normal_enter {config : Config} {final : Bool} {rest : Text} {mode : Mode}
    (h : normal config final rest = .enter mode) :
    (∃ index style, config.commentAt rest final = .found index style ∧ mode = style.mode index) ∨
      ∃ (q : Quote) (tail : Text), rest = q.char :: tail ∧
        mode = .string q (Text.size [q.char]) false := by
  have hr := normal_ruled config final rest
  rw [h] at hr
  generalize hs : Step.enter mode = s at hr
  cases hr with
  | comment index style _ hc =>
    cases hs
    exact Or.inl ⟨index, style, hc, rfl⟩
  | segment cls word after _ _ hm _ =>
    have hseg := segment_segmented config.symbols final cls word after
    rw [← hs] at hseg
    cases hseg with
    | quote q hq =>
      subst hq
      obtain rfl := SymbolSet.munch_atom hm
      exact Or.inr ⟨q, after, SymbolSet.munch_append _ hm, rfl⟩
  | _ => cases hs

end Step

/-! ## What a state says -/

/-- The text is one run, and nothing that could come before a run starts or may start there. -/
structure Run.Fills (config : Config) (run : Run) (text : Text) : Prop where
  ne_nil : text ≠ []
  all : ∀ c ∈ text, config.symbols.classOf c = .run run
  comment : config.commentAt text false = .absent
  operator : config.operatorAt text false = .absent

/-- A string that begins the text held back and is not closed in it. -/
structure Mode.OpenString (pending : Text) (quote : Quote) (scanned : Nat) (escaped : Bool) :
    Prop where
  /-- All is searched. -/
  scanned_eq : scanned = Text.size pending
  /-- No sign behind the quote is the quote, and what escapes the next character is a backslash that
  nothing escapes, at the end. -/
  inside : ∃ inside : Text, pending = quote.char :: inside ∧ [quote.char] ∉ inside.signs ∧
    (escaped = true ↔ inside.signs.getLast? = some ['\\'])

/-- A comment that begins the text held back, goes up to the end of its line and may go on. -/
structure Mode.OpenLine (config : Config) (pending : Text) (scanned : Nat) : Prop where
  /-- All is searched. -/
  scanned_eq : scanned = Text.size pending
  /-- No line ends behind the starting delimiter. -/
  inside : ∃ style ∈ config.styles, style.close = none ∧
    ∃ inside, pending = style.start ++ inside ∧ ∀ c ∈ inside, c ≠ '\n' ∧ c ≠ '\r'

/-- A comment that begins the text held back with this delimiter and is not closed in it. -/
structure Mode.OpenBlock (pending start close : Text) (scanned : Nat) : Prop where
  starts : start <+: pending
  /-- All is searched in which the closing delimiter does not begin, whatever comes. -/
  scanned_eq : scanned = max (Text.size start) (Text.size pending - (Text.size close - 1))
  /-- Behind the starting delimiter the closing one does not stand. -/
  absent : ∀ before after, pending = before ++ (close ++ after) → Text.size before < Text.size start
  /-- Nor will it begin among what is searched. -/
  later : ∀ more before after, pending ++ more = before ++ (close ++ after) →
    Text.size start ≤ Text.size before → scanned ≤ Text.size before

/-- What a mode says of the text held back. -/
def Mode.Describes (config : Config) (pending : Text) : Mode → Prop
  | .normal => True
  | .string quote scanned escaped => OpenString pending quote scanned escaped
  | .lineComment scanned => OpenLine config pending scanned
  | .blockComment style close scanned =>
    ∃ start, config.styles[style]? = some ⟨start, some close⟩ ∧
      OpenBlock pending start close scanned

/-- What is remembered of the text held back is true of it. -/
structure Session.Described (config : Config) (s : Session) : Prop where
  mode : s.mode.Describes config s.pending
  /-- A run is remembered between pieces only. -/
  between : s.run ≠ none → s.mode = .normal
  /-- The run that is remembered is the one that the text is, if it is one. -/
  run : ∀ run, s.run = some run ↔ run.Fills config s.pending

/-! ## A scan that cuts nothing off -/

section

variable {config : Config} {rest : Text} {stop : Stop}

theorem Mode.describes_string {q : Quote} {tail : Text} {mode : Mode} {run : Option Run}
    (h : Step.string false q (Text.size [q.char]) false (q.char :: tail) = .wait mode run) :
    mode.Describes config (q.char :: tail) := by
  have hseek : Text.seek (Text.size [q.char]) (q.char :: tail) = (1, tail) :=
    Text.seek_behind [q.char] tail
  simp only [Step.string, hseek] at h
  split at h
  · cases h
  · next escaped hq =>
    cases h
    have hnone : [q.char] ∉ tail.signs := by
      rcases Step.findQuote_spec q.char_ne_backslash tail 1 with ⟨_, _, _, hclosed, _⟩ | ⟨_, hmem⟩
      · cases hq.symm.trans hclosed
      · exact hmem
    exact ⟨rfl, tail, rfl, hnone, Step.escaped_of_findQuote tail hq⟩

theorem Mode.describes_lineComment {style : CommentStyle} {body : Text} {mode : Mode}
    {run : Option Run} (hstyle : style ∈ config.styles) (hclose : style.close = none)
    (h : Step.lineComment false (Text.size style.start) (style.start ++ body) = .wait mode run) :
    mode.Describes config (style.start ++ body) := by
  simp only [Step.lineComment, Text.seek_behind] at h
  split at h
  · cases h
  · next hnone =>
    cases h
    refine ⟨rfl, style, hstyle, hclose, body, rfl, fun c hc => ?_⟩
    have hline : ¬ Step.isLineEnd c = true := by
      rw [List.findIdx?_eq_none_iff.1 hnone c hc]
      exact Bool.false_ne_true
    exact not_or.1 (mt Step.isLineEnd_iff.2 hline)

/-- Where a closing delimiter is not found it will not begin among what is searched. -/
theorem Mode.openBlock_of_absent {start close body : Text} (h : body.endOf? close = none) :
    OpenBlock (start ++ body) start close
      (max (Text.size start) (Text.size (start ++ body) - (Text.size close - 1))) := by
  have hnone {mid after : Text} : body ≠ mid ++ (close ++ after) := fun hbody =>
    Text.endOfFrom?_eq_none_iff.1 h mid _ hbody (List.prefix_append close after)
  refine ⟨List.prefix_append start body, rfl, fun before after htext => ?_,
    fun more before after htext hstart => ?_⟩
  · refine Nat.lt_of_not_le fun hstart => ?_
    obtain ⟨mid, -, hbody⟩ := Text.exists_between htext hstart
    exact hnone hbody
  · refine Nat.le_of_not_lt fun hscanned => ?_
    rw [List.append_assoc] at htext
    obtain ⟨mid, rfl, hbody⟩ := Text.exists_between htext hstart
    -- so far to the left that it would end in the text at hand
    have hends : Text.size (mid ++ close) ≤ Text.size body := by
      simp only [Text.size_append] at hscanned ⊢
      omega
    rw [← List.append_assoc] at hbody
    obtain ⟨after', rfl, -⟩ := Text.exists_between hbody.symm hends
    exact hnone (List.append_assoc mid close after')

theorem Mode.describes_blockComment {index : Nat} {start close body : Text} {mode : Mode}
    {run : Option Run} (hstyle : config.styles[index]? = some ⟨start, some close⟩)
    (h : Step.blockComment false index close (Text.size start) (start ++ body) = .wait mode run) :
    mode.Describes config (start ++ body) := by
  simp only [Step.blockComment, Text.seek_behind] at h
  split at h
  · cases h
  · next hnone =>
    cases h
    exact ⟨start, hstyle, openBlock_of_absent hnone⟩

/-- In what was just entered the scanner waits as the text says. -/
theorem Mode.describes_of_enter {mode mode' : Mode} {run : Option Run}
    (henter : step config false .normal rest = .enter mode)
    (hwait : step config false mode rest = .wait mode' run) : mode'.Describes config rest := by
  rcases Step.normal_enter henter with ⟨index, ⟨start, close⟩, hc, rfl⟩ | ⟨q, tail, rfl, rfl⟩
  · obtain ⟨hindex, body, rfl⟩ := PrefixMatch.find_found hc
    cases close with
    | none => exact describes_lineComment (List.mem_of_getElem? hindex) rfl hwait
    | some close => exact describes_blockComment hindex hwait
  · exact describes_string hwait

theorem Scans.describes (h : Scans config false .normal rest [] stop) :
    stop.mode.Describes config rest := by
  cases h with
  | wait hstep =>
    obtain ⟨rfl, -⟩ := normal_wait hstep
    trivial
  | done _ => trivial
  | enter hstep hscan =>
    have hmode := (step_enter hstep).2.1
    cases hscan with
    | wait hstep' => exact Mode.describes_of_enter hstep hstep'
    | enter hstep' _ => exact absurd (step_enter hstep').1 hmode
    | done hstep' => exact absurd (step_done hstep').1 hmode

/-- A text that is a run is waited for as one. -/
theorem Run.Fills.scans {run : Run} (h : run.Fills config rest) :
    Scans config false .normal rest [] ⟨.normal, rest, some run⟩ := by
  have hruled : Step.Ruled config false rest (.wait .normal (some run)) :=
    .segmentOpen _ _ _ h.comment h.operator (SymbolSet.munch_of_all h.ne_nil h.all) rfl
  exact .wait hruled.eq.symm

/-- What is waited for as a run is one. -/
theorem Scans.fills {run : Run} {mode : Mode} {rest' : Text}
    (h : Scans config false .normal rest [] ⟨mode, rest', some run⟩) : run.Fills config rest := by
  obtain ⟨-, hc, ho, word, hm⟩ := Session.munch_of_scans h
  refine ⟨?_, SymbolSet.classOf_of_munch_run hm, hc, ho⟩
  rintro rfl
  cases hm

end

/-! ## Sessions -/

namespace Session

variable {config : Config} {s : Session}

/-- What is remembered is what a scan of the text held back comes to. -/
def Fresh (config : Config) (s : Session) : Prop :=
  Scans config false .normal s.pending [] ⟨s.mode, s.pending, s.run⟩

theorem start_fresh (config : Config) : Fresh config .start := .done rfl

theorem scan_fresh (h : AtRest config s) (hfresh : Fresh config s) (chunk : Text) :
    Fresh config (s.scan config chunk false).1 := by
  obtain ⟨cuts, hscan, -, -⟩ := Scan.ofBuffer_scans config false s.offset
    ⟨some s.offset, s.pending ++ chunk⟩ (h.fits.append chunk)
  -- the scan that went on in the old state is the end of one that starts between pieces
  have fits : Mode.normal.Fits config s.pending := trivial
  have hwhole := Scans.append fits hfresh hscan
  rw [List.nil_append] at hwhole
  rw [← List.append_nil cuts] at hwhole
  obtain ⟨rest, hrest, hbehind⟩ := hwhole.exists_behind
  have htext := hscan.text_eq
  obtain rfl := List.append_cancel_left (htext.symm.trans hrest)
  exact hbehind

/-- A chunk leaves a session that remembers what a scan of the text held back comes to. -/
theorem feed_fresh (h : AtRest config s) (hfresh : Fresh config s) (chunk : Text) :
    Fresh config (s.feed config chunk false).1 := by
  by_cases hsize : s.offset + Text.size s.pending + Text.size chunk ≤ maxOffset
  · rw [feed_eq_scan h false hsize]
    exact scan_fresh h hfresh chunk
  · rw [feed_of_unfit h.unfinished (Nat.lt_of_not_le hsize)]
    exact hfresh

theorem Reachable.fresh (h : Reachable config s) : Fresh config s := by
  induction h with
  | start => exact start_fresh config
  | feed chunk h ih => exact feed_fresh h.atRest ih chunk

theorem Usage.reachable_call {u : Usage}
    (h : u.session.finished = false → Reachable config u.session) (c : Call)
    (hopen : (u.call config c).session.finished = false) :
    Reachable config (u.call config c).session := by
  cases c with
  | reset => exact .start
  | feed chunk final =>
    have hsession : (u.call config (.feed chunk final)).session =
        (u.session.feed config chunk final).1 := rfl
    rw [hsession] at hopen ⊢
    cases hfinished : u.session.finished with
    | true =>
      rw [feed_of_finished hfinished] at hopen ⊢
      exact h hopen
    | false =>
      have hreach := h hfinished
      cases final with
      | false => exact .feed chunk hreach
      | true =>
        by_cases hsize :
            u.session.offset + Text.size u.session.pending + Text.size chunk ≤ maxOffset
        · obtain ⟨tokens, hfeed⟩ := feed_final hreach.atRest hsize
          rw [hfeed] at hopen
          cases hopen
        · rw [feed_of_unfit hfinished (Nat.lt_of_not_le hsize)]
          exact hreach

theorem Usage.reachable_run {u : Usage}
    (h : u.session.finished = false → Reachable config u.session) (calls : List Call) :
    (u.run config calls).session.finished = false →
      Reachable config (u.run config calls).session := by
  induction calls generalizing u with
  | nil => exact h
  | cons c calls ih => exact ih (reachable_call h c)

/-- However a session was used, as long as the last chunk was not fed it is one that chunks lead
to. -/
theorem Usage.reachable (config : Config) (calls : List Call)
    (hopen : (start.run config calls).session.finished = false) :
    Reachable config (start.run config calls).session :=
  reachable_run (fun _ => .start) calls hopen

/-- What is remembered depends on the text held back alone. -/
theorem Reachable.remembered {s' : Session} (h : Reachable config s) (h' : Reachable config s')
    (hpending : s.pending = s'.pending) : s.mode = s'.mode ∧ s.run = s'.run := by
  have hfresh := h.fresh
  rw [Fresh, hpending] at hfresh
  obtain ⟨-, hstop⟩ := hfresh.det h'.fresh
  injection hstop with hmode _ hrun
  exact ⟨hmode, hrun⟩

theorem Fresh.described (h : Fresh config s) : Described config s := by
  have run_eq {run : Run} (hfills : run.Fills config s.pending) :
      s.mode = .normal ∧ s.run = some run := by
    obtain ⟨-, hstop⟩ := h.det hfills.scans
    injection hstop with hmode _ hrun
    exact ⟨hmode, hrun⟩
  have fills {run : Run} (hrun : s.run = some run) : run.Fills config s.pending := by
    rw [Fresh, hrun] at h
    exact h.fills
  refine ⟨h.describes, fun hrun => ?_, fun run => ⟨fills, fun hfills => (run_eq hfills).2⟩⟩
  obtain ⟨run, hrun⟩ := Option.ne_none_iff_exists'.1 hrun
  exact (run_eq (fills hrun)).1

/-- However an input was cut into chunks, and wherever the last of them ended, what the session
remembers is what a scan of the text held back comes to, and is true of that text. In a string all
of it is searched, no quote behind the first is a sign by itself, and the flag tells whether the
last backslash escapes what comes. In a line comment all of it is searched and no line ends. In a
block comment of a configured style the closing delimiter does not stand behind the starting one,
and wherever the text to come completes it, it begins where it is not searched yet. And a run is
remembered exactly if the text is one, with no comment or operator at its start. -/
theorem described_of_reachable (h : Reachable config s) : Fresh config s ∧ Described config s :=
  ⟨h.fresh, h.fresh.described⟩

/-- A string in a block, cut before and behind a backslash, and a block comment of which less is
known than its closing delimiter is long. -/
theorem described_of_reachable_cuts :
    let s := (((start.feed .default ['(', '"', 'a'] false).1.feed .default ['\\'] false).1.feed
      .default [] false).1
    let t := ((start.feed .default ['(', '/'] false).1.feed .default ['*', '*'] false).1
    (Reachable .default s ∧ s.mode = .string .double 3 true ∧
      Fresh .default s ∧ Described .default s) ∧
      Reachable .default t ∧ t.mode = .blockComment 1 ['*', '/'] 2 ∧
        Fresh .default t ∧ Described .default t :=
  have hstring := .feed [] (.feed ['\\'] (.feed ['(', '"', 'a'] .start))
  have hcomment := .feed ['*', '*'] (.feed ['(', '/'] .start)
  ⟨⟨hstring, by decide +kernel, described_of_reachable hstring⟩,
    hcomment, by decide +kernel, described_of_reachable hcomment⟩

end Session

end TokenTree
