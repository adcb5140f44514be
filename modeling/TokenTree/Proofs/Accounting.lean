import TokenTree.Proofs.Session
import TokenTree.Proofs.Tiling

/-!
# Where the text of a session is

Between two chunks the text that a session was fed is in three places: in the tokens handed over, in
the open blocks with what they have gathered, and in the text held back. No byte of it is lost, none
is in two places, and the three stand one after the other (`Session.Account.Balanced`).

A nest has the text of the pieces that it was built of, whatever brackets are closed or given up
(`Nest.text_push`), and each open block starts where that text was long enough (`Nest.Standing`). A
session is a nest whose complete tokens were handed over.
-/

namespace TokenTree

open Token

/-! ## The text of a nest -/

namespace Frame

/-- The opening bracket with what is inside so far. -/
def text (f : Frame) : Text := f.opener.text ++ reconstruct f.children.reverse

theorem text_add (f : Frame) (t : Token) : (f.add t).text = f.text ++ t.text := by
  show f.opener.text ++ reconstruct (t :: f.children).reverse = _
  rw [List.reverse_cons, reconstruct, List.flatMap_append, ← List.append_assoc,
    List.flatMap_singleton]
  rfl

end Frame

namespace Nest

/-- The text of all tokens and open blocks, in the order of the input. -/
def text (n : Nest) : Text := reconstruct n.tokens.reverse ++ n.frames.reverse.flatMap Frame.text

/-- Each open block starts with the bracket of its kind, where the text before it ends. -/
def Standing (tokens : List Token) : List Frame → Prop
  | [] => True
  | f :: fs => f.opener.text = [f.delimiter.opener] ∧ f.start = Text.size (text ⟨fs, tokens⟩) ∧
    Standing tokens fs

variable {n n' : Nest} {ds : List Delimiter}

theorem text_outside (ts : List Token) : text ⟨[], ts⟩ = reconstruct ts.reverse :=
  List.append_nil _

theorem text_inside (f : Frame) (fs : List Frame) (ts : List Token) :
    text ⟨f :: fs, ts⟩ = text ⟨fs, ts⟩ ++ f.text := by
  rw [text, text, List.reverse_cons, List.flatMap_append, List.flatMap_singleton,
    List.append_assoc]

theorem text_add (n : Nest) (t : Token) : (n.add t).text = n.text ++ t.text := by
  obtain ⟨frames, tokens⟩ := n
  cases frames with
  | nil =>
    show text ⟨[], t :: tokens⟩ = _
    rw [text_outside, text_outside, List.reverse_cons, reconstruct, List.flatMap_append,
      List.flatMap_singleton]
    rfl
  | cons f fs =>
    show text ⟨f.add t :: fs, tokens⟩ = _
    rw [text_inside, text_inside, Frame.text_add, List.append_assoc]

theorem GivesUp.text_eq (h : GivesUp ds n n') : n.text = n'.text := by
  induction h with
  | refl n => rfl
  | @step f fs tokens ds n _ ih => rw [← ih, text_add, text_inside, Frame.text_giveUp]; rfl

theorem text_close (n : Nest) (d : Delimiter) (span : Span) (closer : Lexeme) :
    (n.close d span closer).text = n.text ++ closer.text := by
  by_cases hd : d ∈ n.delimiters
  · obtain ⟨ds, f, fs, tokens, hg, rfl, hds⟩ := exists_givesUp hd
    rw [close_of_givesUp hg hds, hg.text_eq, text_add, text_inside, Frame.text_close, Frame.text]
    simp only [List.append_assoc]
  · rw [close_of_absent hd, text_add]
    rfl

/-- What a piece adds to the text of a nest is its own text. -/
theorem text_push (n : Nest) (p : Piece) : (n.push p).text = n.text ++ p.lexeme.text := by
  unfold push
  cases p.kind with
  | leaf kind => exact text_add n _
  | unterminated => exact text_add n _
  | opener d =>
    obtain ⟨frames, tokens⟩ := n
    show text ⟨⟨d, p.span.start, p.lexeme, []⟩ :: frames, tokens⟩ = _
    rw [text_inside]
    simp [Frame.text, reconstruct]
  | closer d => exact text_close n d _ _

theorem text_foldl_push (n : Nest) (ps : List Piece) :
    (ps.foldl push n).text = n.text ++ textOf ps := by
  induction ps generalizing n with
  | nil => exact (List.append_nil _).symm
  | cons p ps ih => rw [List.foldl_cons, ih, text_push, textOf_cons, List.append_assoc]

/-! ## Where open blocks start -/

theorem Standing.add {frames : List Frame} {tokens : List Token} (h : Standing tokens frames)
    (t : Token) : Standing (add ⟨frames, tokens⟩ t).tokens (add ⟨frames, tokens⟩ t).frames := by
  cases frames with
  | nil => trivial
  | cons f fs => exact h

theorem GivesUp.standing (h : GivesUp ds n n') (hn : Standing n.tokens n.frames) :
    Standing n'.tokens n'.frames := by
  induction h with
  | refl n => exact hn
  | step _ ih => exact ih (Standing.add hn.2.2 _)

theorem Standing.close (hn : Standing n.tokens n.frames) (d : Delimiter) (span : Span)
    (closer : Lexeme) :
    Standing (n.close d span closer).tokens (n.close d span closer).frames := by
  by_cases hd : d ∈ n.delimiters
  · obtain ⟨ds, f, fs, tokens, hg, rfl, hds⟩ := exists_givesUp hd
    rw [close_of_givesUp hg hds]
    exact Standing.add (hg.standing hn).2.2 _
  · rw [close_of_absent hd]
    exact hn.add _

theorem Standing.push {p : Piece} (hn : Standing n.tokens n.frames)
    (hp : p.StandsAt (Text.size n.text)) : Standing (n.push p).tokens (n.push p).frames := by
  obtain ⟨kind, span, lexeme⟩ := p
  cases kind with
  | leaf kind => exact hn.add _
  | unterminated => exact hn.add _
  | opener d => exact ⟨hp.opener d rfl, hp.start_eq, hn⟩
  | closer d => exact hn.close d _ _

/-- Pieces that follow the text of a nest leave all open blocks where they start. -/
theorem Standing.foldl_push {ps : List Piece} {pos : Nat} (hn : Standing n.tokens n.frames)
    (hpos : pos = Text.size n.text) (hps : Laid pos ps) :
    Standing (ps.foldl Nest.push n).tokens (ps.foldl Nest.push n).frames := by
  induction ps generalizing n pos with
  | nil => exact hn
  | cons p ps ih =>
    obtain ⟨hp, hps⟩ := hps
    refine ih (hn.push (hpos ▸ hp)) ?_ hps
    rw [text_push, Text.size_append, hpos]

theorem Standing.start_eq {tokens : List Token} {inner outer : List Frame} {f : Frame}
    (h : Standing tokens (inner ++ f :: outer)) : f.start = Text.size (text ⟨outer, tokens⟩) := by
  induction inner with
  | nil => exact h.2.1
  | cons g inner ih => exact ih h.2.2

end Nest

/-- The text of open blocks, from the outermost to the innermost: the bracket that opens each and
the tokens inside it so far. -/
def openText (frames : List Frame) : Text :=
  frames.reverse.flatMap fun f => f.delimiter.opener :: reconstruct f.children.reverse

theorem Nest.Standing.text_eq {tokens : List Token} {frames : List Frame}
    (h : Standing tokens frames) :
    Nest.text ⟨frames, tokens⟩ = reconstruct tokens.reverse ++ openText frames := by
  induction frames with
  | nil => exact (Nest.text_outside tokens).trans (List.append_nil _).symm
  | cons f fs ih =>
    obtain ⟨hopener, -, hfs⟩ := h
    rw [Nest.text_inside, ih hfs, Frame.text, hopener, openText, openText, List.reverse_cons,
      List.flatMap_append, List.flatMap_singleton, List.append_assoc]
    rfl

theorem openText_eq_nil_iff {frames : List Frame} : openText frames = [] ↔ frames = [] := by
  constructor
  · intro h
    cases frames with
    | nil => rfl
    | cons f fs =>
      rw [openText, List.reverse_cons, List.flatMap_append, List.flatMap_singleton] at h
      cases (List.append_eq_nil_iff.1 h).2
  · rintro rfl
    rfl

/-! ## The pieces of a buffer -/

/-- The pieces of a buffer follow each other up to where the scan came to rest. -/
theorem Scan.ofBuffer_laid (config : Config) (final : Bool) (base : Nat) {mode : Mode}
    (buffer : Buffer) (fits : mode.Fits config buffer.text) :
    let scan := ofBuffer config final base mode buffer
    Laid base scan.pieces ∧ buffer.text = textOf scan.pieces ++ scan.cursor.rest ∧
      scan.cursor.pos = Text.size (textOf scan.pieces) := by
  obtain ⟨cuts, hscan, hpieces, hpos⟩ := ofBuffer_scans config final base buffer fits
  obtain ⟨hlaid, htext⟩ := laid_of_layout hpieces fun c hc => hscan.whole fits hc
  refine ⟨hlaid, ?_, by rw [htext, hpos]⟩
  rw [htext]
  exact hscan.text_eq

/-! ## Accounts -/

namespace Session

/-- A session with what it was fed and what it handed over. -/
structure Account where
  session : Session
  /-- The text of all chunks that were not refused. -/
  fed : Text
  /-- The tokens that were handed over, in order. -/
  emitted : List Token

namespace Account

/-- The account of an input that has not begun. -/
def start : Account := ⟨.start, [], []⟩

/-- The account after one more chunk, which is not the last. -/
def feed (config : Config) (a : Account) (chunk : Text) : Account :=
  let (session, output) := a.session.feed config chunk false
  match output.status with
  | .refused _ => { a with session }
  | _ => ⟨session, a.fed ++ chunk, a.emitted ++ output.tokens⟩

/-- All text fed is in the tokens handed over, the open blocks and the text held back, which follow
each other. -/
structure Balanced (a : Account) : Prop where
  text : a.fed = reconstruct a.emitted ++ (openText a.session.frames ++ a.session.pending)
  /-- The offset is where the text held back starts. -/
  offset : a.session.offset + Text.size a.session.pending = Text.size a.fed
  /-- A block starts where what was handed over and the blocks around it end. -/
  start : ∀ inner f outer, a.session.frames = inner ++ f :: outer →
    f.start = Text.size (reconstruct a.emitted ++ openText outer)

/-- The nest that the session would be if nothing were handed over. -/
def nest (a : Account) : Nest := ⟨a.session.frames, a.emitted.reverse⟩

/-- What every chunk keeps. -/
structure Kept (config : Config) (a : Account) : Prop where
  rests : AtRest config a.session
  text : a.fed = a.nest.text ++ a.session.pending
  offset : a.session.offset = Text.size a.nest.text
  standing : Nest.Standing a.emitted.reverse a.session.frames

variable {config : Config} {a : Account}

theorem start_kept (config : Config) : Kept config start := ⟨start_atRest config, rfl, rfl, trivial⟩

theorem Kept.size_fed (h : Kept config a) :
    Text.size a.fed = a.session.offset + Text.size a.session.pending := by
  rw [h.text, h.offset, Text.size_append]

theorem Kept.balanced (h : Kept config a) : a.Balanced := by
  have htext := h.standing.text_eq
  rw [List.reverse_reverse] at htext
  refine ⟨?_, h.size_fed.symm, ?_⟩
  · rw [h.text, nest, htext, List.append_assoc]
  · intro inner f outer hframes
    have hstanding := h.standing
    rw [hframes] at hstanding
    have houter : Nest.Standing a.emitted.reverse outer := by
      clear hframes
      induction inner with
      | nil => exact hstanding.2.2
      | cons g inner ih => exact ih hstanding.2.2
    have houterText := houter.text_eq
    rw [List.reverse_reverse] at houterText
    rw [hstanding.start_eq, houterText]

theorem status_of_fits {s : Session} (h : AtRest config s) {chunk : Text}
    (hsize : s.offset + Text.size s.pending + Text.size chunk ≤ maxOffset) :
    (s.feed config chunk false).2.status =
      if (s.feed config chunk false).1.isSettled then .ready else .needMoreData := by
  rw [feed_eq_scan h false hsize]
  rfl

theorem feed_of_fits (h : AtRest config a.session) {chunk : Text}
    (hsize : a.session.offset + Text.size a.session.pending + Text.size chunk ≤ maxOffset) :
    a.feed config chunk = ⟨(a.session.feed config chunk false).1, a.fed ++ chunk,
      a.emitted ++ (a.session.feed config chunk false).2.tokens⟩ := by
  have hstatus := status_of_fits h hsize
  unfold feed
  generalize a.session.feed config chunk false = answer at hstatus
  obtain ⟨session, tokens, status⟩ := answer
  cases hsettled : session.isSettled with
  | true =>
    obtain rfl : status = .ready := by simpa [hsettled] using hstatus
    rfl
  | false =>
    obtain rfl : status = .needMoreData := by simpa [hsettled] using hstatus
    rfl

theorem rest_feed {s : Session} (h : AtRest config s) {chunk : Text}
    (hsize : s.offset + Text.size s.pending + Text.size chunk ≤ maxOffset) :
    let scan := Scan.ofBuffer config false s.offset s.mode ⟨some s.offset, s.pending ++ chunk⟩
    (s.feed config chunk false).1.pending = scan.cursor.rest ∧
      (s.feed config chunk false).1.offset = s.offset + scan.cursor.pos := by
  rw [feed_eq_scan h false hsize]
  exact ⟨rfl, rfl⟩

theorem nest_feed (h : AtRest config a.session) {chunk : Text}
    (hsize : a.session.offset + Text.size a.session.pending + Text.size chunk ≤ maxOffset) :
    (a.feed config chunk).nest =
      (Scan.ofBuffer config false a.session.offset a.session.mode
        ⟨some a.session.offset, a.session.pending ++ chunk⟩).pieces.foldl Nest.push a.nest := by
  have honto : a.nest = (⟨a.session.frames, []⟩ : Nest).onto a.emitted.reverse := rfl
  rw [feed_of_fits h hsize, feed_eq_scan h false hsize, honto, Nest.foldl_push_onto, scan_eq, nest,
    tokens_settle]
  simp only [List.reverse_append, List.reverse_reverse]
  rfl

theorem Kept.feed (h : Kept config a) {chunk : Text}
    (hsize : Text.size (a.fed ++ chunk) ≤ maxOffset) : Kept config (a.feed config chunk) := by
  rw [Text.size_append, h.size_fed] at hsize
  obtain ⟨hlaid, htext, hpos⟩ := Scan.ofBuffer_laid config false a.session.offset
    ⟨some a.session.offset, a.session.pending ++ chunk⟩ (h.rests.fits.append chunk)
  have hnest := nest_feed h.rests hsize
  have hstanding : Nest.Standing a.nest.tokens a.nest.frames := h.standing
  have hgrown := hstanding.foldl_push h.offset hlaid
  rw [← hnest] at hgrown
  have hnestText := congrArg Nest.text hnest
  rw [Nest.text_foldl_push] at hnestText
  obtain ⟨hpending, hoffset⟩ := rest_feed h.rests hsize
  have hfeed := feed_of_fits h.rests hsize
  refine ⟨?_, ?_, ?_, hgrown⟩
  · rw [hfeed]
    exact feed_atRest h.rests chunk
  · rw [hnestText, hfeed, hpending, h.text, List.append_assoc, List.append_assoc]
    exact congrArg (a.nest.text ++ ·) htext
  · rw [hnestText, hfeed, hoffset, Text.size_append, ← h.offset, hpos]

/-- A chunk that does not fit changes nothing. -/
theorem feed_of_overflow (h : AtRest config a.session) {chunk : Text}
    (hsize : maxOffset < a.session.offset + Text.size a.session.pending + Text.size chunk) :
    a.feed config chunk = a ∧
      (a.session.feed config chunk false).2.status = .refused .offsetOverflow := by
  have hrefused : a.session.feed config chunk false =
      (a.session, ⟨[], .refused .offsetOverflow⟩) := by
    rw [Session.feed, if_neg (by simp [h.unfinished]), if_pos hsize]
  rw [feed, hrefused]
  exact ⟨rfl, rfl⟩

theorem foldl_feed_kept (config : Config) (chunks : List Text) :
    Kept config (chunks.foldl (feed config) start) := by
  have hkept {a : Account} (h : Kept config a) : Kept config (chunks.foldl (feed config) a) := by
    induction chunks generalizing a with
    | nil => exact h
    | cons chunk chunks ih =>
      refine ih ?_
      by_cases hsize : Text.size (a.fed ++ chunk) ≤ maxOffset
      · exact h.feed hsize
      · rw [Text.size_append, h.size_fed] at hsize
        rw [(feed_of_overflow h.rests (Nat.lt_of_not_le hsize)).1]
        exact h
  exact hkept (start_kept config)

/-- Nothing is open or held back exactly if the tokens handed over are all the text fed. -/
theorem Kept.isSettled_iff (h : Kept config a) :
    a.session.isSettled = true ↔ reconstruct a.emitted = a.fed := by
  rw [h.balanced.text, List.self_eq_append_right, List.append_eq_nil_iff, openText_eq_nil_iff]
  simp only [isSettled, Bool.and_eq_true, beq_iff_eq, List.isEmpty_iff]
  constructor
  · rintro ⟨⟨-, hframes⟩, hpending⟩
    exact ⟨hframes, hpending⟩
  · rintro ⟨hframes, hpending⟩
    refine ⟨⟨?_, hframes⟩, hpending⟩
    -- in the middle of something there would be text held back
    by_cases hmode : a.session.mode = .normal
    · exact hmode
    · exact absurd hpending (h.rests.fits.ne_nil hmode)

/-- After every chunk that is not the last, all text fed is accounted for; and the answer to the
chunk tells whether all of it was handed over. -/
theorem feed_balanced (config : Config) (chunks : List Text) (chunk : Text) :
    let a := chunks.foldl (feed config) start
    let b := a.feed config chunk
    b.Balanced ∧
      (a.session.feed config chunk false).2.status =
        if maxOffset < Text.size (a.fed ++ chunk) then .refused .offsetOverflow
        else if reconstruct b.emitted = b.fed then .ready else .needMoreData := by
  intro a b
  have ha : Kept config a := foldl_feed_kept config chunks
  have hb : Kept config b := by
    have hfold := foldl_feed_kept config (chunks ++ [chunk])
    rw [List.foldl_append] at hfold
    exact hfold
  refine ⟨hb.balanced, ?_⟩
  have hsum := ha.size_fed
  split
  · next hover =>
    rw [Text.size_append, hsum] at hover
    exact (feed_of_overflow ha.rests hover).2
  · next hfits =>
    rw [Text.size_append, hsum, Nat.not_lt] at hfits
    have hsession : b.session = (a.session.feed config chunk false).1 :=
      congrArg Account.session (feed_of_fits ha.rests hfits)
    rw [status_of_fits ha.rests hfits, ← hsession]
    simp only [hb.isSettled_iff]

end Account

end Session

end TokenTree
