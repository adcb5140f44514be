import Mathlib.Data.List.Pairwise
import TokenTree.Proofs.Buffers
import TokenTree.Proofs.Lifecycle
import TokenTree.Proofs.Promptness
import TokenTree.Proofs.Saturation

/-!
# What a session shares

Each call of a session has a buffer of its own, which holds the text held back and the chunk. Tokens
without an opening bracket view the buffer of the call that made them. Blocks, and malformed regions
that an opening bracket left, view the buffer of the call that has all of them, and are copied if no
call has (`shared_or_copied`).

That the calls follow each other (`Session.Log.Ordered`), and that the tokens are made of pieces
each of which views the buffer of the call that took its first byte (`Session.Log.Kept`), is what
every call keeps. What came in which buffer is thus known at each offset, and that is all there is
to know for the tokens made of these pieces (`Groups.sourced`).
-/

namespace TokenTree

open Token

/-- The token starts with an opening bracket, which made it a block or a malformed region. -/
def Token.Opened (t : Token) : Prop := ∃ d, t.IsBlock d ∨ t.IsUnclosed d

namespace Nest

variable {n n' : Nest} {t u : Token} {ds : List Delimiter}

/-! ## Where a token comes from -/

theorem holds_cons {f : Frame} {fs : List Frame} {tokens : List Token} :
    Holds t ⟨f :: fs, tokens⟩ ↔ Holds t ⟨fs, tokens⟩ ∨ Occurs t f.children := by
  constructor
  · rintro (h | ⟨g, hg, h⟩)
    · exact Or.inl (Or.inl h)
    · rcases List.mem_cons.1 hg with rfl | hg
      · exact Or.inr h
      · exact Or.inl (Or.inr ⟨g, hg, h⟩)
  · rintro ((h | ⟨g, hg, h⟩) | h)
    · exact Or.inl h
    · exact Or.inr ⟨g, List.mem_cons_of_mem _ hg, h⟩
    · exact Or.inr ⟨f, List.mem_cons_self, h⟩

theorem Holds.of_add (h : Holds t (n.add u)) : Holds t n ∨ t = u ∨ Occurs t u.children := by
  obtain ⟨frames, tokens⟩ := n
  cases frames with
  | nil =>
    rcases h with h | ⟨f, hf, -⟩
    · rcases occurs_cons.1 h with h | h | h
      · exact Or.inr (Or.inl h)
      · exact Or.inr (Or.inr h)
      · exact Or.inl (Or.inl h)
    · cases hf
  | cons f fs =>
    rcases holds_cons.1 h with h | h
    · exact Or.inl (holds_cons.2 (Or.inl h))
    · rcases occurs_cons.1 h with h | h | h
      · exact Or.inr (Or.inl h)
      · exact Or.inr (Or.inr h)
      · exact Or.inl (holds_cons.2 (Or.inr h))

/-- Giving up open blocks makes no tokens but what these become. -/
theorem GivesUp.holds_before (hg : GivesUp ds n n') (ht : ¬ t.Opened) (h : Holds t n') :
    Holds t n := by
  induction hg with
  | refl n => exact h
  | @step f fs tokens ds n _ ih =>
    rcases (ih h).of_add with h | rfl | h
    · exact holds_cons.2 (Or.inl h)
    · exact absurd ⟨f.delimiter, Or.inr rfl⟩ ht
    · exact holds_cons.2 (Or.inr (occurs_reverse.1 h))

/-- A token that no opening bracket starts is one piece. -/
theorem Holds.of_push {p : Piece} (ht : ¬ t.Opened) (h : Holds t (n.push p)) :
    Holds t n ∨ t.lexeme = p.lexeme ∧ t.span = p.span := by
  obtain ⟨kind, s, l⟩ := p
  have hadd {u : Token} (hchildren : u.children = []) (h : Holds t (n.add u)) :
      Holds t n ∨ t.lexeme = u.lexeme ∧ t.span = u.span := by
    rcases h.of_add with h | rfl | h
    · exact Or.inl h
    · exact Or.inr ⟨rfl, rfl⟩
    · rw [hchildren] at h
      exact absurd h occurs_nil
  cases kind with
  | leaf k => exact hadd rfl h
  | unterminated => exact hadd rfl h
  | opener d =>
    rcases holds_cons.1 h with h | h
    · exact Or.inl h
    · exact absurd h occurs_nil
  | closer d =>
    have h : Holds t (n.close d s l) := h
    by_cases hd : d ∈ n.delimiters
    · obtain ⟨ds, f, fs, tokens, hg, rfl, hds⟩ := exists_givesUp hd
      rw [close_of_givesUp hg hds] at h
      refine Or.inl (hg.holds_before ht ?_)
      rcases h.of_add with h | rfl | h
      · exact holds_cons.2 (Or.inl h)
      · exact absurd ⟨f.delimiter, Or.inl rfl⟩ ht
      · exact holds_cons.2 (Or.inr (occurs_reverse.1 h))
    · rw [close_of_absent hd] at h
      exact hadd rfl h

theorem Holds.of_foldl_push {ps : List Piece} (ht : ¬ t.Opened) (h : Holds t (ps.foldl push n)) :
    Holds t n ∨ ∃ p ∈ ps, t.lexeme = p.lexeme ∧ t.span = p.span := by
  induction ps generalizing n with
  | nil => exact Or.inl h
  | cons p ps ih =>
    rcases ih h with h | ⟨q, hq, h⟩
    · exact (h.of_push ht).imp_right fun h => ⟨p, List.mem_cons_self, h⟩
    · exact Or.inr ⟨q, List.mem_cons_of_mem _ hq, h⟩

theorem Holds.of_finish (ht : ¬ t.Opened) (h : Holds t n.finish) : Holds t n := by
  obtain ⟨ds, tokens, hg⟩ := exists_givesUp_all n
  rw [hg.finish_eq] at h
  exact hg.holds_before ht h

theorem holds_reverse {frames : List Frame} {tokens : List Token} :
    Holds t ⟨frames, tokens.reverse⟩ ↔ Holds t ⟨frames, tokens⟩ := or_congr_left occurs_reverse

theorem holds_onto {older : List Token} : Holds t (n.onto older) ↔ Holds t n ∨ Occurs t older := by
  have htokens : Occurs t (n.onto older).tokens ↔ Occurs t n.tokens ∨ Occurs t older :=
    occurs_append
  rw [Holds, htokens, or_right_comm]
  rfl

end Nest

/-- Pieces that follow each other start within their text. -/
theorem Laid.bounds {pos : Nat} {ps : List Piece} (h : Laid pos ps) :
    ∀ p ∈ ps, pos ≤ p.span.start ∧ p.span.start < pos + Text.size (textOf ps) := by
  induction ps generalizing pos with
  | nil => exact List.forall_mem_nil _
  | cons p ps ih =>
    obtain ⟨hp, hps⟩ := h
    have hpos := Text.size_pos hp.ne_nil
    rw [textOf_cons, Text.size_append]
    refine List.forall_mem_cons.2 ⟨?_, fun q hq => ?_⟩
    · rw [hp.start_eq]
      omega
    · have hq := ih hps q hq
      omega

namespace Session

/-! ## Calls and their buffers -/

/-- A call that was not refused. -/
structure Delivery where
  before : Session
  chunk : Text
  after : Session
  /-- The tokens that were handed over. -/
  tokens : List Token

namespace Delivery

/-- The buffer of the call: the text held back and the chunk. -/
def buffer (d : Delivery) : Buffer := ⟨some d.before.offset, d.before.pending ++ d.chunk⟩

/-- The byte at that offset is in a piece that the call cut off. It may have been held back before,
but it is not held back any more. -/
def Took (d : Delivery) (pos : Nat) : Prop := d.before.offset ≤ pos ∧ pos < d.after.offset

instance (d : Delivery) (pos : Nat) : Decidable (d.Took pos) :=
  inferInstanceAs (Decidable (_ ∧ _))

/-- The call made the token: it handed it over or put it into an open block, and it was in no open
block before. -/
def Emitted (d : Delivery) (t : Token) : Prop :=
  Nest.Holds t ⟨d.after.frames, d.tokens⟩ ∧ ¬ Nest.Holds t ⟨d.before.frames, []⟩

/-- All of the token is of the buffer of the call: its opening bracket, its closing bracket, if it
has one, and its children. -/
structure Has (d : Delivery) (t : Token) : Prop where
  opener : d.Took t.span.start
  closer : ∀ k, t.IsBlock k → d.Took (t.span.stop - 1)
  children : ∀ u ∈ t.children, u.lexeme.view.buffer = d.buffer

end Delivery

/-- A session with the calls that it took. -/
structure Log where
  session : Session
  deliveries : List Delivery

namespace Log

/-- The log of an input that has not begun. -/
def start : Log := ⟨.start, []⟩

/-- The log with one more call. -/
def add (log : Log) (d : Delivery) : Log := ⟨d.after, log.deliveries ++ [d]⟩

/-- The log after the next chunk; `final` marks the last one. -/
def feed (config : Config) (log : Log) (chunk : Text) (final : Bool) : Log :=
  let (session, output) := log.session.feed config chunk final
  match output.status with
  | .refused _ => { log with session }
  | _ => log.add ⟨log.session, chunk, session, output.tokens⟩

/-- The nest that the session would be if nothing were handed over. -/
def nest (log : Log) : Nest :=
  ⟨log.session.frames, (log.deliveries.flatMap Delivery.tokens).reverse⟩

/-- What the tokens that were handed over, those inside them and those in open blocks share with the
buffers of the calls, and what is copied. -/
structure Shared (log : Log) : Prop where
  /-- A call that cut something off has another buffer than all calls after it. -/
  apart : log.deliveries.Pairwise fun d e => d.before.offset < d.after.offset → d.buffer ≠ e.buffer
  /-- A token without an opening bracket views the buffer of the call that made it. -/
  leaf : ∀ t, Nest.Holds t log.nest → ¬ t.Opened →
    (∃ d ∈ log.deliveries, d.Emitted t) ∧
      ∀ d ∈ log.deliveries, d.Emitted t → t.lexeme.ViewsAt d.buffer d.before.offset t.span
  /-- A block or region views the buffer of the call that has all of it. -/
  shared : ∀ t, Nest.Holds t log.nest → t.Opened → ∀ d ∈ log.deliveries, d.Has t →
    t.lexeme.ViewsAt d.buffer d.before.offset t.span
  /-- A block or region of which no call has all views all of a buffer that is of no call. -/
  copied : ∀ t, Nest.Holds t log.nest → t.Opened → (∀ d ∈ log.deliveries, ¬ d.Has t) →
    t.lexeme.view.buffer = ⟨none, t.text⟩ ∧ t.lexeme.start = 0 ∧
      t.lexeme.stop = t.lexeme.length ∧ ∀ d ∈ log.deliveries, t.lexeme.view.buffer ≠ d.buffer

end Log

variable {config : Config} {final : Bool} {d : Delivery} {log : Log} {ps qs : List Piece}

/-! ## One call -/

theorem Delivery.offset_eq {d e : Delivery} (h : d.buffer = e.buffer) :
    d.before.offset = e.before.offset := Option.some.inj (congrArg Buffer.label h)

/-- The call cuts these pieces off the text held back and the chunk. -/
structure Delivery.Cuts (config : Config) (final : Bool) (d : Delivery) (qs : List Piece) :
    Prop where
  laid : Laid d.before.offset qs
  views : ∀ q ∈ qs, q.lexeme.Views d.buffer d.before.offset q.span.start
  nest : (⟨d.after.frames, d.tokens.reverse⟩ : Nest) = grow d.before.frames final qs
  offset : d.after.offset = d.before.offset + Text.size (textOf qs)
  finished : d.after.finished = final
  rests : final = false → AtRest config d.after

theorem Delivery.Cuts.took (h : d.Cuts config final qs) : ∀ q ∈ qs, d.Took q.span.start := by
  intro q hq
  rw [Took, h.offset]
  exact h.laid.bounds q hq

theorem Delivery.Cuts.leaf (h : d.Cuts config final qs) {t : Token} (hemitted : d.Emitted t)
    (ht : ¬ t.Opened) : t.lexeme.Views d.buffer d.before.offset t.span.start := by
  obtain ⟨hafter, hbefore⟩ := hemitted
  rw [← Nest.holds_reverse, h.nest] at hafter
  have hpushed : Nest.Holds t (qs.foldl Nest.push ⟨d.before.frames, []⟩) := by
    cases final with
    | true => exact hafter.of_finish ht
    | false => exact hafter
  rcases hpushed.of_foldl_push ht with hold | ⟨q, hq, hlexeme, hspan⟩
  · exact absurd hold hbefore
  · rw [hlexeme, hspan]
    exact h.views q hq

theorem Log.feed_of_taken {chunk : Text}
    (h : ∀ fault, (log.session.feed config chunk final).2.status ≠ .refused fault) :
    log.feed config chunk final = log.add ⟨log.session, chunk,
      (log.session.feed config chunk final).1, (log.session.feed config chunk final).2.tokens⟩ := by
  -- the hypothesis is what rules out the branch of refused calls
  simp only [feed]

theorem Log.feed_of_refused {chunk : Text} {fault : Fault}
    (h : log.session.feed config chunk final = (log.session, ⟨[], .refused fault⟩)) :
    log.feed config chunk final = log := by
  simp only [feed, h]

/-- A call that is not refused cuts off pieces. -/
theorem Log.exists_cuts (h : AtRest config log.session) {chunk : Text} (final : Bool)
    (hsize : log.session.offset + Text.size log.session.pending + Text.size chunk ≤ maxOffset) :
    ∃ d qs, log.feed config chunk final = log.add d ∧ d.before = log.session ∧
      d.Cuts config final qs := by
  obtain ⟨hlaid, -, hpos⟩ := Scan.ofBuffer_laid config final log.session.offset
    ⟨some log.session.offset, log.session.pending ++ chunk⟩ (h.fits.append chunk)
  have hviews := Scan.ofBuffer_views config final log.session.offset log.session.mode
    ⟨some log.session.offset, log.session.pending ++ chunk⟩
  have hfeed := feed_eq_scan h final hsize
  have hstatus : ∀ fault, (log.session.feed config chunk final).2.status ≠ .refused fault := by
    rw [hfeed, scan_eq]
    exact status_settle final _ _
  refine ⟨_, _, feed_of_taken hstatus, rfl, hlaid, hviews, ?_, ?_, ?_, ?_⟩
  · rw [hfeed, scan_eq, tokens_settle, List.reverse_reverse]
    cases final <;> rfl
  · rw [hfeed, scan_eq, ← hpos]
    cases final <;> rfl
  · rw [hfeed, scan_eq]
    cases final with
    | true => rfl
    | false => exact h.unfinished
  · rintro rfl
    exact feed_atRest h chunk

namespace Log

/-! ## What every call keeps -/

/-- The calls follow each other up to where the session stands. -/
structure Ordered (log : Log) : Prop where
  took : ∀ pos < log.session.offset, ∃ d ∈ log.deliveries, d.Took pos
  pairwise : log.deliveries.Pairwise fun d e => d.after.offset ≤ e.before.offset
  bounded : ∀ d ∈ log.deliveries, d.after.offset ≤ log.session.offset

theorem Ordered.add (h : Ordered log) (hbefore : d.before = log.session)
    (hle : log.session.offset ≤ d.after.offset) : Ordered (log.add d) := by
  refine ⟨fun pos hpos => ?_, ?_, ?_⟩
  · by_cases hlt : pos < log.session.offset
    · obtain ⟨e, he, htook⟩ := h.took pos hlt
      exact ⟨e, List.mem_append_left _ he, htook⟩
    · refine ⟨d, List.mem_append_right _ List.mem_cons_self, ?_, hpos⟩
      rw [hbefore]
      exact Nat.le_of_not_lt hlt
  · refine List.pairwise_append.2 ⟨h.pairwise, List.pairwise_singleton _ _, fun e he f hf => ?_⟩
    rw [List.mem_singleton.1 hf, hbefore]
    exact h.bounded e he
  · refine List.forall_mem_append.2 ⟨fun e he => ?_, List.forall_mem_singleton.2 (Nat.le_refl _)⟩
    exact Nat.le_trans (h.bounded e he) hle

/-- Each token was made by a call, and views its buffer if no opening bracket starts it. -/
structure Made (log : Log) : Prop where
  emitted : ∀ t, Nest.Holds t log.nest → ∃ d ∈ log.deliveries, d.Emitted t
  leaf : ∀ d ∈ log.deliveries, ∀ t, d.Emitted t → ¬ t.Opened →
    t.lexeme.Views d.buffer d.before.offset t.span.start

/-- What a call makes follows what was handed over before. -/
theorem nest_add (log : Log) (d : Delivery) :
    (log.add d).nest = (⟨d.after.frames, d.tokens.reverse⟩ : Nest).onto log.nest.tokens := by
  simp only [nest, add, List.flatMap_append, List.flatMap_singleton, List.reverse_append]
  rfl

theorem Made.add (h : Made log) (hbefore : d.before = log.session)
    (hcuts : d.Cuts config final qs) : Made (log.add d) := by
  refine ⟨fun t ht => ?_, List.forall_mem_append.2 ⟨h.leaf, List.forall_mem_singleton.2 ?_⟩⟩
  · by_cases hold : Nest.Holds t log.nest
    · obtain ⟨e, he, hemitted⟩ := h.emitted t hold
      exact ⟨e, List.mem_append_left _ he, hemitted⟩
    · have hnest : log.nest = (⟨log.session.frames, []⟩ : Nest).onto log.nest.tokens := rfl
      rw [nest_add, Nest.holds_onto, Nest.holds_reverse] at ht
      rw [hnest, Nest.holds_onto, not_or, ← hbefore] at hold
      exact ⟨d, List.mem_append_right _ List.mem_cons_self, ht.resolve_right hold.2, hold.1⟩
  · exact fun t hemitted ht => hcuts.leaf hemitted ht

/-- The pieces cut off of the input so far are those from which its tree would be built, and each is
a view of the buffer of the call that cut it off. -/
structure Kept (config : Config) (log : Log) (ps : List Piece) : Prop where
  ordered : Ordered log
  made : Made log
  rests : log.session.finished = false → AtRest config log.session
  nest : log.session.finished = false → log.nest = ps.foldl Nest.push ⟨[], []⟩
  held : ∀ t, Nest.Holds t log.nest → Occurs t (Nest.build ps)
  laid : Laid 0 ps
  offset : log.session.offset = Text.size (textOf ps)
  pieces : ∀ p ∈ ps, ∃ d ∈ log.deliveries, d.Took p.span.start ∧
    p.lexeme.Views d.buffer d.before.offset p.span.start

theorem start_kept (config : Config) : Kept config start [] where
  ordered := ⟨fun pos hpos => absurd hpos (Nat.not_lt_zero pos), .nil, List.forall_mem_nil _⟩
  made := by
    refine ⟨?_, List.forall_mem_nil _⟩
    rintro t (h | ⟨f, hf, -⟩)
    · exact absurd h occurs_nil
    · cases hf
  rests := fun _ => start_atRest config
  nest := fun _ => rfl
  held := fun _ h => h.finish
  laid := trivial
  offset := rfl
  pieces := List.forall_mem_nil _

theorem Kept.add (h : Kept config log ps) (hopen : log.session.finished = false)
    (hbefore : d.before = log.session) (hcuts : d.Cuts config final qs) :
    Kept config (log.add d) (ps ++ qs) := by
  have hoffset : d.after.offset = log.session.offset + Text.size (textOf qs) := by
    rw [← hbefore]
    exact hcuts.offset
  have hbuild : (ps ++ qs).foldl Nest.push ⟨[], []⟩ =
      (qs.foldl Nest.push ⟨d.before.frames, []⟩).onto log.nest.tokens := by
    rw [List.foldl_append, ← h.nest hopen, ← Nest.foldl_push_onto, hbefore]
    rfl
  have hnest : (log.add d).nest =
      let nest := (ps ++ qs).foldl Nest.push ⟨[], []⟩
      if final then nest.finish else nest := by
    rw [nest_add, hcuts.nest, grow, hbuild]
    cases final with
    | true => exact (Nest.finish_onto _ _).symm
    | false => rfl
  refine ⟨h.ordered.add hbefore (by omega), h.made.add hbefore hcuts, ?_, ?_, ?_, ?_, ?_, ?_⟩
  · intro hopen'
    exact hcuts.rests (hcuts.finished.symm.trans hopen')
  · intro hopen'
    obtain rfl : final = false := hcuts.finished.symm.trans hopen'
    exact hnest
  · intro t ht
    rw [hnest] at ht
    rw [Nest.build, occurs_reverse]
    cases final with
    | false => exact ht.finish
    | true =>
      rcases ht with ht | ⟨f, hf, -⟩
      · exact ht
      · have hnone : f ∈ ([] : List Frame) := (Nest.frames_finish _) ▸ hf
        cases hnone
  · rw [laid_append, Nat.zero_add, ← h.offset, ← hbefore]
    exact ⟨h.laid, hcuts.laid⟩
  · rw [textOf_append, Text.size_append, ← h.offset]
    exact hoffset
  · refine List.forall_mem_append.2 ⟨fun p hp => ?_, fun q hq => ?_⟩
    · obtain ⟨e, he, htook, hviews⟩ := h.pieces p hp
      exact ⟨e, List.mem_append_left _ he, htook, hviews⟩
    · exact ⟨d, List.mem_append_right _ List.mem_cons_self, hcuts.took q hq, hcuts.views q hq⟩

theorem exists_kept (config : Config) (calls : List (Text × Bool)) :
    ∃ ps, Kept config (calls.foldl (fun log call => log.feed config call.1 call.2) start) ps := by
  have hkept {log : Log} {ps : List Piece} (h : Kept config log ps) :
      ∃ ps, Kept config (calls.foldl (fun log call => log.feed config call.1 call.2) log) ps := by
    induction calls generalizing log ps with
    | nil => exact ⟨ps, h⟩
    | cons call calls ih =>
      obtain ⟨chunk, final⟩ := call
      rw [List.foldl_cons]
      cases hfinished : log.session.finished with
      | true =>
        rw [feed_of_refused (feed_of_finished hfinished config chunk final)]
        exact ih h
      | false =>
        by_cases hsize :
            log.session.offset + Text.size log.session.pending + Text.size chunk ≤ maxOffset
        · obtain ⟨d, qs, hfeed, hbefore, hcuts⟩ := exists_cuts (h.rests hfinished) final hsize
          rw [hfeed]
          exact ih (h.add hfinished hbefore hcuts)
        · rw [feed_of_refused (feed_of_unfit hfinished (Nat.lt_of_not_le hsize) final)]
          exact ih h
  exact hkept (start_kept config)

/-! ## Who brought what -/

/-- The buffer of the call that took the byte at that offset. -/
def source (log : Log) (pos : Nat) : Buffer :=
  match log.deliveries.find? (fun d => d.Took pos) with
  | some d => d.buffer
  | none => ⟨some 0, []⟩

/-- The offset of the first byte of the buffer of a call, which is its label. -/
def base (b : Buffer) : Nat := b.label.getD 0

variable {e : Delivery} {pos : Nat} {t : Token}

/-- Different calls take different bytes. -/
theorem Ordered.eq_or_apart (h : Ordered log) (hd : d ∈ log.deliveries) (he : e ∈ log.deliveries) :
    d = e ∨ d.after.offset ≤ e.before.offset ∨ e.after.offset ≤ d.before.offset := by
  have hsymm : log.deliveries.Pairwise fun d e =>
      d.after.offset ≤ e.before.offset ∨ e.after.offset ≤ d.before.offset :=
    h.pairwise.imp Or.inl
  have : Std.Symm fun d e : Delivery =>
      d.after.offset ≤ e.before.offset ∨ e.after.offset ≤ d.before.offset :=
    ⟨fun _ _ h => h.symm⟩
  by_cases heq : d = e
  · exact Or.inl heq
  · exact Or.inr (hsymm.forall hd he heq)

theorem Ordered.eq_of_took (h : Ordered log) (hd : d ∈ log.deliveries) (he : e ∈ log.deliveries)
    (hpos : d.Took pos) (hpos' : e.Took pos) : d = e := by
  obtain ⟨hfrom, hto⟩ := hpos
  obtain ⟨hfrom', hto'⟩ := hpos'
  rcases h.eq_or_apart hd he with heq | hle | hle
  · exact heq
  · omega
  · omega

/-- A buffer tells the call, if the call cut something off. -/
theorem Ordered.eq_of_buffer (h : Ordered log) (hd : d ∈ log.deliveries) (he : e ∈ log.deliveries)
    {pos' : Nat} (hpos : d.Took pos) (hpos' : e.Took pos') (hbuffer : d.buffer = e.buffer) :
    d = e := by
  have hoffset := Delivery.offset_eq hbuffer
  obtain ⟨hfrom, hto⟩ := hpos
  obtain ⟨hfrom', hto'⟩ := hpos'
  rcases h.eq_or_apart hd he with heq | hle | hle
  · exact heq
  · omega
  · omega

theorem Ordered.source_eq (h : Ordered log) (hd : d ∈ log.deliveries) (hpos : d.Took pos) :
    log.source pos = d.buffer := by
  rw [source]
  split
  · next e hfind =>
    have hpos' : e.Took pos := by simpa using List.find?_some hfind
    rw [h.eq_of_took hd (List.mem_of_find?_eq_some hfind) hpos hpos']
  · next hnone =>
    have hno := List.find?_eq_none.1 hnone d hd
    simp [hpos] at hno

/-- A copy is in no buffer of a call. -/
theorem fresh_of_copied {l : Lexeme} (h : l.Copied log.source) :
    ∀ pos, l.view.buffer ≠ log.source pos := by
  intro pos hbuffer
  rw [h.view_eq.2] at hbuffer
  have hlabel := congrArg Buffer.label hbuffer
  rw [source] at hlabel
  split at hlabel <;> cases hlabel

namespace Kept

theorem sourced (h : Kept config log ps) (ht : Nest.Holds t log.nest) :
    t.Sourced log.source base := by
  refine (Nest.groups_build ps).1.sourced (fun _ => fresh_of_copied) h.laid ?_ t (h.held t ht)
  intro p hp
  obtain ⟨d, hd, htook, hviews⟩ := h.pieces p hp
  rw [Lexeme.Direct, h.ordered.source_eq hd htook]
  exact hviews

theorem span_eq (h : Kept config log ps) (ht : Nest.Holds t log.nest) :
    t.span = ⟨t.span.start, t.span.start + Text.size t.text⟩ :=
  ((Nest.groups_build ps).1.span_eq h.laid (h.held t ht)).1

/-- A token starts and ends in what was cut off. -/
theorem ends (h : Kept config log ps) (ht : Nest.Holds t log.nest) :
    t.span.start < log.session.offset ∧ t.span.stop - 1 < log.session.offset := by
  obtain ⟨hspan, hle⟩ := (Nest.groups_build ps).1.span_eq h.laid (h.held t ht)
  have hpos := Text.size_pos ((Nest.groups_build ps).1.framed h.laid t (h.held t ht)).ne_nil
  have hstop : t.span.stop = t.span.start + Text.size t.text := congrArg Span.stop hspan
  rw [h.offset]
  omega

/-- The call that took the start of a token has all of it exactly if the token is undivided. -/
theorem has_iff (h : Kept config log ps) (ht : Nest.Holds t log.nest) (hd : d ∈ log.deliveries)
    (hstart : d.Took t.span.start) : d.Has t ↔ t.Undivided log.source := by
  rw [Token.Undivided, h.ordered.source_eq hd hstart]
  constructor
  · rintro ⟨-, hcloser, hchildren⟩
    exact ⟨fun k hk => h.ordered.source_eq hd (hcloser k hk), hchildren⟩
  · rintro ⟨hcloser, hchildren⟩
    refine ⟨hstart, fun k hk => ?_, hchildren⟩
    obtain ⟨e, he, htook⟩ := h.ordered.took _ (h.ends ht).2
    have hbuffer := hcloser k hk
    rw [h.ordered.source_eq he htook] at hbuffer
    obtain rfl := h.ordered.eq_of_buffer he hd htook hstart hbuffer
    exact htook

theorem shared (h : Kept config log ps) : log.Shared where
  apart := by
    refine h.ordered.pairwise.imp fun hle hlt hbuffer => ?_
    have hoffset := Delivery.offset_eq hbuffer
    omega
  leaf t ht hleaf := by
    refine ⟨h.made.emitted t ht, fun d hd hemitted => ?_⟩
    rw [h.span_eq ht]
    exact (h.made.leaf d hd t hemitted hleaf).viewsAt
  shared t ht _ d hd hhas := by
    rcases h.sourced ht with ⟨hdirect, -⟩ | ⟨-, hdivided⟩
    · rw [Lexeme.Direct, h.ordered.source_eq hd hhas.opener] at hdirect
      rw [h.span_eq ht]
      exact hdirect.viewsAt
    · exact absurd ((h.has_iff ht hd hhas.opener).1 hhas) hdivided
  copied t ht _ hnone := by
    obtain ⟨d, hd, hstart⟩ := h.ordered.took _ (h.ends ht).1
    rcases h.sourced ht with ⟨-, hundivided⟩ | ⟨hcopied, -⟩
    · exact absurd ((h.has_iff ht hd hstart).2 hundivided) (hnone d hd)
    · obtain ⟨hothers, hview⟩ := hcopied.view_eq
      refine ⟨?_, if_neg hothers, if_neg hothers, fun e he hbuffer => ?_⟩
      · rw [hview]
        rfl
      · rw [hview] at hbuffer
        cases congrArg Buffer.label hbuffer

end Kept

end Log

end Session

/-- What is shared and what is copied. All tokens of a whole input view its buffer, at their spans.
In a session, whatever chunks it is fed, tokens view the buffers of the calls that have all of them,
at their spans less the offset at the start of the call, and are copied if no call has. -/
theorem shared_or_copied (config : Config) :
    (∀ buffer : Buffer, Text.size buffer.text ≤ maxOffset →
      Checked.lexBuffer config buffer = .ok (lexBuffer config buffer) ∧
        ∀ t, Occurs t (lexBuffer config buffer) → t.lexeme.ViewsAt buffer 0 t.span) ∧
      ∀ calls : List (Text × Bool),
        (calls.foldl (fun log call => log.feed config call.1 call.2) Session.Log.start).Shared := by
  refine ⟨fun buffer hfit => ⟨Checked.lexBuffer_eq config hfit, fun t ht => ?_⟩, fun calls => ?_⟩
  · exact lexBuffer_views config buffer ht
  · obtain ⟨ps, hkept⟩ := Session.Log.exists_kept config calls
    exact hkept.shared

/-- The tokens of an input in one buffer, a block among them. -/
theorem shared_or_copied_block :
    let buffer : Buffer := ⟨some 0, ['«', '(', 'a', ')']⟩
    Text.size buffer.text ≤ maxOffset ∧
      Checked.lexBuffer .default buffer = .ok (lexBuffer .default buffer) ∧
      (lexBuffer .default buffer).map Token.span = [⟨0, 2⟩, ⟨2, 5⟩] ∧
      ∀ t, Occurs t (lexBuffer .default buffer) → t.lexeme.ViewsAt buffer 0 t.span := by
  intro buffer
  have hfit : Text.size buffer.text ≤ maxOffset := by decide
  obtain ⟨hchecked, hviews⟩ := (shared_or_copied .default).1 buffer hfit
  exact ⟨hfit, hchecked, by decide +kernel, hviews⟩

/-- The brackets of the first block come in two calls, those of the second in one. -/
example :
    let log := Session.Log.start.feed .default ['(', '[', ']'] false
    (log.feed .default [')', '{', '}'] true).nest.tokens.reverse.map
      (fun t => t.lexeme.view.buffer.label) = [none, some 3] := by decide +kernel

/-- One letter more than there are offsets: the last letter is viewed where it stands, and its span
is empty. -/
theorem shared_or_copied_fails_beyond :
    let buffer : Buffer := ⟨some 0, List.replicate (maxOffset + 1) 'a'⟩
    ∃ tokens, Checked.lexBuffer .default buffer = .ok tokens ∧
      ¬ ∀ t, Occurs t tokens → t.lexeme.ViewsAt buffer 0 t.span := by
  intro buffer
  obtain ⟨first, second, -, -, -, hstop, hlex⟩ := Checked.lex_letters
  refine ⟨_, hlex, fun h => ?_⟩
  obtain ⟨-, hspan⟩ := h _ (.here (List.mem_of_getElem? (i := 1) rfl))
  have hview : maxOffset = 0 + second.stop := congrArg Span.stop hspan
  omega

end TokenTree
