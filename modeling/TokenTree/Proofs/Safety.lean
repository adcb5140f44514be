import TokenTree.Proofs.Accounting
import TokenTree.Proofs.CheckedStep
import TokenTree.Proofs.Lifecycle
import TokenTree.Proofs.Readable

/-!
# No check fails

A run of the checked scanner passes every check, and gets as far as the scan that cannot fail
(`Checked.scanBuffer_eq`). So does each call of a session (`Checked.feed_eq`): what is kept between
two chunks is ready to be searched further (`Checked.Ready`), a string from a byte between
characters, a comment from any byte.

The tokens that are handed over can be read: those handed over so far are made of pieces that
follow each other from the beginning of the input (`Session.MadeOf`), and with the tokens of the
next chunk they are the beginning of a whole tree (`Session.MadeOf.exists_build`). Both are put
together in `never_fails`.
-/

namespace TokenTree

/-! ## Scans -/

/-- How far the scan got, by its offset. -/
def Scan.reached (s : Scan) : Checked.Reached := ⟨s.pieces, s.mode, s.cursor.pos, s.run⟩

namespace Checked

variable {config : Config} {final : Bool} {base : Nat}

theorem cut_pos (cursor : Cursor) : cut cursor.buffer.text cursor.pos = .ok cursor.rest := by
  obtain ⟨before, htext, hpos⟩ := cursor.inside
  rw [htext, ← hpos, cut_append]

/-- The offset of a position is not beyond the greatest one. -/
theorem offset_pos (cursor : Cursor) (hfit : base + Text.size cursor.buffer.text ≤ maxOffset) :
    Segmenter.offset base cursor.pos = base + cursor.pos := by
  obtain ⟨before, htext, hpos⟩ := cursor.inside
  rw [htext, Text.size_append] at hfit
  exact Segmenter.offset_eq (by omega)

/-- A step that cuts a piece off goes on behind it. -/
theorem go_piece {mode : Mode} {buffer : Buffer} {kind : PieceKind} {pos start stop : Nat}
    {l : Lexeme} {rest : Text}
    (hstep : step config final base buffer.text mode pos = .ok (.piece kind start stop))
    (hlexeme : lexeme buffer start stop = .ok l) (hcut : cut buffer.text stop = .ok rest)
    (fuel : Nat) (seen : List Piece) :
    go config final base buffer (fuel + 1) seen mode pos =
      go config final base buffer fuel
        (⟨kind, ⟨Segmenter.offset base start, Segmenter.offset base stop⟩, l⟩ :: seen) .normal
        stop := by
  rw [go, hstep, ok_bind]
  simp only [hlexeme, hcut, ok_bind]

theorem go_cut {mode : Mode} {cursor : Cursor} {kind : PieceKind} {count : Nat}
    (hstep : step config final base cursor.buffer.text mode cursor.pos =
      .ok (.piece kind cursor.pos (cursor.cut count).2.pos)) (fuel : Nat) (seen : List Piece) :
    go config final base cursor.buffer (fuel + 1) seen mode cursor.pos =
      go config final base cursor.buffer fuel
        (⟨kind, ⟨Segmenter.offset base cursor.pos,
            Segmenter.offset base (cursor.cut count).2.pos⟩, .ofView (cursor.cut count).1⟩ :: seen)
        .normal (cursor.cut count).2.pos :=
  go_piece hstep (lexeme_cut cursor count) (cut_pos (cursor.cut count).2) fuel seen

/-- A step that enters a string or a comment goes on from where it is. -/
theorem go_enter {mode mode' : Mode} {buffer : Buffer} {pos : Nat}
    (hstep : step config final base buffer.text mode pos = .ok (.enter mode')) (fuel : Nat)
    (seen : List Piece) :
    go config final base buffer (fuel + 1) seen mode pos =
      go config final base buffer fuel seen mode' pos := by
  rw [go, hstep, ok_bind]

/-- A run of steps passes all its checks and gets as far as the scan. -/
theorem go_eq (fuel : Nat) (seen : List Piece) (mode : Mode) (cursor : Cursor)
    (hfit : base + Text.size cursor.buffer.text ≤ maxOffset) (fits : mode.Fits config cursor.rest)
    (hquoted : mode.Quoted cursor.rest) (hfuel : Scan.cost mode cursor.rest ≤ fuel) :
    go config final base cursor.buffer fuel seen mode cursor.pos =
      .ok (Scan.go config final base fuel seen mode cursor).reached := by
  induction fuel generalizing seen mode cursor with
  | zero =>
    have hpos := Scan.cost_pos fits
    omega
  | succ fuel ih =>
    obtain ⟨before, htext, hpos⟩ := cursor.inside
    have hstep : step config final base cursor.buffer.text mode cursor.pos =
        .ok (.ofStep cursor.pos cursor.rest (TokenTree.step config final mode cursor.rest)) := by
      rw [htext, ← hpos]
      exact step_eq (htext ▸ hfit) fits hquoted
    rw [Scan.go]
    cases h : TokenTree.step config final mode cursor.rest with
    | piece kind count =>
      rw [h] at hstep
      have hcost : Scan.cost .normal (cursor.rest.drop count) < Scan.cost mode cursor.rest :=
        Scan.cost_drop (step_piece fits h)
      rw [go_cut hstep, offset_pos cursor hfit, offset_pos (cursor.cut count).2 hfit]
      exact ih _ .normal (cursor.cut count).2 hfit trivial trivial
        (Nat.le_of_lt_succ (Nat.lt_of_lt_of_le hcost hfuel))
    | enter mode' =>
      rw [h] at hstep
      obtain ⟨rfl, hmode, fits'⟩ := step_enter h
      have hcost : Scan.cost mode' cursor.rest < Scan.cost .normal cursor.rest :=
        Scan.cost_enter hmode
      rw [go_enter hstep]
      exact ih seen mode' cursor hfit fits' (quoted_enter h)
        (Nat.le_of_lt_succ (Nat.lt_of_lt_of_le hcost hfuel))
    | wait mode' run =>
      rw [go, hstep, h]
      rfl
    | done =>
      rw [go, hstep, h]
      rfl

theorem scanBuffer_eq {mode : Mode} {buffer : Buffer}
    (hfit : base + Text.size buffer.text ≤ maxOffset) (fits : mode.Fits config buffer.text)
    (hquoted : mode.Quoted buffer.text) :
    scanBuffer config final base mode buffer =
      .ok (Scan.ofBuffer config final base mode buffer).reached := by
  have hfuel : Scan.cost mode buffer.text ≤ 2 * buffer.text.length + 1 := by
    unfold Scan.cost
    split <;> omega
  exact go_eq _ [] mode (.ofBuffer buffer) hfit fits hquoted hfuel

theorem lexBuffer_eq (config : Config) {buffer : Buffer}
    (hfit : Text.size buffer.text ≤ maxOffset) :
    lexBuffer config buffer = .ok (TokenTree.lexBuffer config buffer) := by
  have hscan : scanBuffer config true 0 .normal buffer = _ :=
    scanBuffer_eq (by rwa [Nat.zero_add]) trivial trivial
  rw [lexBuffer, hscan]
  rfl

theorem lex_eq (config : Config) {source : Text} (hfit : Text.size source ≤ maxOffset) :
    lex config source = .ok (TokenTree.lex config source) := lexBuffer_eq config hfit

/-! ## Sessions -/

variable {s : Session}

/-- What is kept between two chunks: a string that is held back can be searched further. -/
structure Ready (config : Config) (s : Session) : Prop where
  rests : Session.AtRest config s
  quoted : s.mode.Quoted s.pending

theorem start_ready (config : Config) : Ready config .start :=
  ⟨Session.start_atRest config, trivial⟩

theorem scan_eq (h : Ready config s) {chunk : Text} (final : Bool)
    (hsize : s.offset + Text.size s.pending + Text.size chunk ≤ maxOffset) :
    scan config s chunk final = .ok (s.scan config chunk final) := by
  have hfit : s.offset + Text.size (s.pending ++ chunk) ≤ maxOffset := by
    rw [Text.size_append, ← Nat.add_assoc]
    exact hsize
  have hscan : scanBuffer config final s.offset s.mode ⟨some s.offset, s.pending ++ chunk⟩ = _ :=
    scanBuffer_eq hfit (h.rests.fits.append chunk) (h.quoted.append chunk)
  obtain ⟨-, htext, hpos⟩ := Scan.ofBuffer_laid config final s.offset
    ⟨some s.offset, s.pending ++ chunk⟩ (h.rests.fits.append chunk)
  rw [scan, Session.scan, hscan]
  generalize Scan.ofBuffer config final s.offset s.mode ⟨some s.offset, s.pending ++ chunk⟩ = found
    at htext hpos
  have htext : s.pending ++ chunk = textOf found.pieces ++ found.cursor.rest := htext
  have hcut : cut (s.pending ++ chunk) found.cursor.pos = .ok found.cursor.rest := by
    rw [htext, hpos, cut_append]
  have hplus : plus s.offset found.cursor.pos = .ok (s.offset + found.cursor.pos) := by
    rw [htext, Text.size_append, ← hpos] at hfit
    rw [plus, if_pos (by omega)]
  simp only [ok_bind, Scan.reached, hcut, hplus, pure_eq]

/-- A call passes all its checks, and answers as the session does. -/
theorem feed_eq (h : Ready config s) (chunk : Text) (final : Bool) :
    feed config s chunk final = .ok (s.feed config chunk final) := by
  unfold feed Session.feed
  split
  · rfl
  · split
    · rfl
    · next hsize =>
      split
      · rfl
      · exact scan_eq h final (Nat.le_of_not_lt hsize)

theorem Ready.feed (h : Ready config s) (chunk : Text) :
    Ready config (s.feed config chunk false).1 := by
  refine ⟨Session.feed_atRest h.rests chunk, ?_⟩
  by_cases hsize : s.offset + Text.size s.pending + Text.size chunk ≤ maxOffset
  · rw [Session.feed_eq_scan h.rests false hsize]
    obtain ⟨cuts, hscan, -, -⟩ := Scan.ofBuffer_scans config false s.offset
      ⟨some s.offset, s.pending ++ chunk⟩ (h.rests.fits.append chunk)
    exact hscan.quoted_stop (h.quoted.append chunk)
  · rw [Session.feed, if_neg (by simp [h.rests.unfinished]), if_pos (Nat.lt_of_not_le hsize)]
    exact h.quoted

/-- A call leaves a session that can be fed again, if only to be refused. -/
theorem feed_keeps (h : s.finished = true ∨ Ready config s) (chunk : Text) (final : Bool) :
    (s.feed config chunk final).1.finished = true ∨ Ready config (s.feed config chunk final).1 := by
  rcases h with h | h
  · left
    rw [Session.feed, if_pos h]
    exact h
  · cases final with
    | false => exact Or.inr (h.feed chunk)
    | true =>
      by_cases hsize : s.offset + Text.size s.pending + Text.size chunk ≤ maxOffset
      · left
        rw [Session.feed_eq_scan h.rests true hsize]
        rfl
      · right
        rw [Session.feed, if_neg (by simp [h.rests.unfinished]), if_pos (Nat.lt_of_not_le hsize)]
        exact h

theorem feedEach_eq (calls : List (Text × Bool)) (h : s.finished = true ∨ Ready config s) :
    feedEach config s calls = .ok (s.feedEach config calls) := by
  induction calls generalizing s with
  | nil => rfl
  | cons call calls ih =>
    obtain ⟨chunk, final⟩ := call
    have hfeed : feed config s chunk final = .ok (s.feed config chunk final) := by
      rcases h with h | h
      · rw [feed, if_pos h, Session.feed, if_pos h]
      · exact feed_eq h chunk final
    have hcalls := ih (feed_keeps h chunk final)
    rw [feedEach, hfeed, ok_bind, Session.feedEach]
    generalize s.feed config chunk final = answer at hcalls ⊢
    simp only [hcalls, ok_bind, pure_eq]

end Checked

/-! ## What is handed over can be read -/

open Token

theorem Token.readableAll_nil : ReadableAll [] :=
  ⟨fun _ ht => absurd ht occurs_nil, by rw [expand?, expandAllOnto]; rfl⟩

theorem lex_readable (config : Config) {source : Text} (hfit : Text.size source ≤ maxOffset) :
    ReadableAll (lex config source) := by
  have fits : Mode.normal.Fits config source := trivial
  obtain ⟨hlaid, htext, -⟩ := Scan.ofBuffer_laid config true 0 ⟨some 0, source⟩ fits
  have hwrapped := Scan.ofBuffer_wrapped config true 0 ⟨some 0, source⟩ fits trivial
  have hle := congrArg Text.size htext
  rw [Text.size_append] at hle
  exact readable_of_groups (Nest.groups_build _).1 hlaid hwrapped
    (Nat.le_trans (Nat.le_trans (Nat.le_add_right _ _) (Nat.le_of_eq hle.symm)) hfit)
    fun _ ht => ht

namespace Session

variable {config : Config} {s : Session} {emitted : List Token} {ps : List Piece}

/-- The open blocks and the tokens handed over were made of these pieces of the input. -/
structure MadeOf (s : Session) (emitted : List Token) (ps : List Piece) : Prop where
  nest : (⟨s.frames, emitted.reverse⟩ : Nest) = ps.foldl Nest.push ⟨[], []⟩
  laid : Laid 0 ps
  wrapped : ∀ p ∈ ps, p.Wrapped
  offset : s.offset = Text.size (textOf ps)

theorem start_madeOf : MadeOf start [] [] := ⟨rfl, trivial, List.forall_mem_nil _, rfl⟩

/-- The pieces of one more chunk follow those before. -/
theorem MadeOf.scan (h : MadeOf s emitted ps) (hready : Checked.Ready config s) {chunk : Text}
    (final : Bool) (hsize : s.offset + Text.size s.pending + Text.size chunk ≤ maxOffset) :
    let scan := Scan.ofBuffer config final s.offset s.mode ⟨some s.offset, s.pending ++ chunk⟩
    Laid 0 (ps ++ scan.pieces) ∧ (∀ p ∈ ps ++ scan.pieces, p.Wrapped) ∧
      Text.size (textOf (ps ++ scan.pieces)) = s.offset + scan.cursor.pos ∧
      s.offset + scan.cursor.pos ≤ maxOffset ∧
      (ps ++ scan.pieces).foldl Nest.push ⟨[], []⟩ =
        (scan.pieces.foldl Nest.push ⟨s.frames, []⟩).onto emitted.reverse := by
  intro scan
  have fits := hready.rests.fits.append chunk
  obtain ⟨hlaid, htext, hpos⟩ := Scan.ofBuffer_laid config final s.offset
    ⟨some s.offset, s.pending ++ chunk⟩ fits
  have hwrapped := Scan.ofBuffer_wrapped config final s.offset
    ⟨some s.offset, s.pending ++ chunk⟩ fits (hready.quoted.append chunk)
  have hbound := congrArg Text.size htext
  rw [Text.size_append, Text.size_append, ← hpos] at hbound
  refine ⟨laid_append.2 ⟨h.laid, ?_⟩, List.forall_mem_append.2 ⟨h.wrapped, hwrapped⟩, ?_, ?_, ?_⟩
  · rw [Nat.zero_add, ← h.offset]
    exact hlaid
  · rw [textOf_append, Text.size_append, ← h.offset, ← hpos]
  · have hle : scan.cursor.pos ≤ Text.size s.pending + Text.size chunk :=
      Nat.le_trans (Nat.le_add_right _ _) (Nat.le_of_eq hbound.symm)
    omega
  · rw [List.foldl_append, ← h.nest]
    exact Nest.foldl_push_onto ⟨s.frames, []⟩ emitted.reverse scan.pieces

theorem MadeOf.feed (h : MadeOf s emitted ps) (hready : Checked.Ready config s) {chunk : Text}
    (hsize : s.offset + Text.size s.pending + Text.size chunk ≤ maxOffset) :
    ∃ qs, MadeOf (s.feed config chunk false).1
      (emitted ++ (s.feed config chunk false).2.tokens) qs := by
  obtain ⟨hlaid, hwrapped, hoffset, -, hnest⟩ := h.scan hready false hsize
  rw [feed_eq_scan hready.rests false hsize]
  refine ⟨_, ?_, hlaid, hwrapped, hoffset.symm⟩
  rw [hnest, List.reverse_append, Session.scan, tokens_settle, List.reverse_reverse]
  rfl

/-- The tokens handed over are some of those that the whole input so far would give. -/
theorem MadeOf.exists_build (h : MadeOf s emitted ps) (hready : Checked.Ready config s)
    {chunk : Text} (final : Bool)
    (hsize : s.offset + Text.size s.pending + Text.size chunk ≤ maxOffset) :
    ∃ qs more, Laid 0 qs ∧ (∀ p ∈ qs, p.Wrapped) ∧ Text.size (textOf qs) ≤ maxOffset ∧
      Nest.build qs = emitted ++ ((s.feed config chunk final).2.tokens ++ more) := by
  obtain ⟨hlaid, hwrapped, hoffset, hle, hnest⟩ := h.scan hready final hsize
  rw [feed_eq_scan hready.rests final hsize]
  unfold Session.scan Nest.build
  rw [tokens_settle]
  generalize Scan.ofBuffer config final s.offset s.mode ⟨some s.offset, s.pending ++ chunk⟩ = scan
    at hlaid hwrapped hoffset hle hnest ⊢
  have hbuild (more : List Token) (nest : Nest)
      (hfinish : (scan.pieces.foldl Nest.push ⟨s.frames, []⟩).finish.tokens =
        more ++ nest.tokens) :
      ((ps ++ scan.pieces).foldl Nest.push ⟨[], []⟩).finish.tokens.reverse =
        emitted ++ (nest.tokens.reverse ++ more.reverse) := by
    rw [hnest, Nest.finish_onto, Nest.onto, hfinish, List.reverse_append, List.reverse_append,
      List.reverse_reverse]
  cases final with
  | true => exact ⟨_, _, hlaid, hwrapped, hoffset ▸ hle, hbuild [] _ rfl⟩
  | false =>
    -- at the end of the input the blocks that are open would be given up
    obtain ⟨newer, hnewer⟩ :=
      (scan.pieces.foldl Nest.push ⟨s.frames, []⟩).exists_tokens_finish
    exact ⟨_, _, hlaid, hwrapped, hoffset ▸ hle, hbuild newer _ hnewer⟩

theorem MadeOf.readable (h : MadeOf s emitted ps) (hready : Checked.Ready config s)
    {chunk : Text} (final : Bool)
    (hsize : s.offset + Text.size s.pending + Text.size chunk ≤ maxOffset) :
    ReadableAll (s.feed config chunk final).2.tokens := by
  obtain ⟨qs, more, hlaid, hwrapped, hfit, hbuild⟩ := h.exists_build hready final hsize
  refine readable_of_groups (Nest.groups_build qs).1 hlaid hwrapped hfit fun t ht => ?_
  rw [hbuild, occurs_append, occurs_append]
  exact Or.inr (Or.inl ht)

theorem feedEach_readable (calls : List (Text × Bool))
    (h : s.finished = true ∨ Checked.Ready config s ∧ ∃ emitted ps, MadeOf s emitted ps) :
    ∀ output ∈ s.feedEach config calls, ReadableAll output.tokens := by
  induction calls generalizing s with
  | nil => exact List.forall_mem_nil _
  | cons call calls ih =>
    obtain ⟨chunk, final⟩ := call
    rw [feedEach]
    refine List.forall_mem_cons.2 ?_
    rcases h with h | ⟨hready, emitted, ps, hmade⟩
    · rw [feed_of_finished h]
      exact ⟨readableAll_nil, ih (Or.inl h)⟩
    · by_cases hsize : s.offset + Text.size s.pending + Text.size chunk ≤ maxOffset
      · refine ⟨hmade.readable hready final hsize, ih ?_⟩
        cases final with
        | true =>
          left
          rw [feed_eq_scan hready.rests true hsize]
          rfl
        | false =>
          obtain ⟨qs, hmade'⟩ := hmade.feed hready hsize
          exact Or.inr ⟨hready.feed chunk, _, qs, hmade'⟩
      · rw [feed_of_unfit hready.rests.unfinished (Nat.lt_of_not_le hsize)]
        exact ⟨readableAll_nil, ih (Or.inr ⟨hready, emitted, ps, hmade⟩)⟩

end Session

/-- No check fails, whatever the input and however it is fed: the tree of an input and the answers
to all calls are those of the checked scanner, and all their tokens can be read. -/
theorem never_fails (config : Config) {source : Text} (hsource : Text.size source ≤ maxOffset)
    (calls : List (Text × Bool)) :
    Checked.lex config source = .ok (lex config source) ∧ ReadableAll (lex config source) ∧
      Checked.feedEach config .start calls = .ok (Session.start.feedEach config calls) ∧
      ∀ output ∈ Session.start.feedEach config calls, ReadableAll output.tokens := by
  have hstart := Checked.start_ready config
  refine ⟨Checked.lex_eq config hsource, lex_readable config hsource, ?_, ?_⟩
  · exact Checked.feedEach_eq calls (Or.inr hstart)
  · exact Session.feedEach_readable calls (Or.inr ⟨hstart, [], [], Session.start_madeOf⟩)

/-- Comments between quotation marks of several bytes, the second of which a cut parts in two, and
a string with an escape that is cut off from what it escapes. -/
theorem never_fails_guillemets :
    let config : Config := ⟨{ Settings.default with styles := [⟨['«'], some ['»', '»']⟩] }, rfl⟩
    let source : Text := ['«', 'é', '»', '»', '"', '\\', '"', 'ü', '"', '(']
    let calls : List (Text × Bool) :=
      [(['«', 'é', '»'], false), (['»', '"', '\\'], false), (['"', 'ü', '"', '('], true),
        ([], true)]
    Text.size source ≤ maxOffset ∧
      Checked.lex config source = .ok (lex config source) ∧ ReadableAll (lex config source) ∧
      Checked.feedEach config .start calls = .ok (Session.start.feedEach config calls) ∧
      ∀ output ∈ Session.start.feedEach config calls, ReadableAll output.tokens := by
  intro config source calls
  have hsource : Text.size source ≤ maxOffset := by decide
  exact ⟨hsource, never_fails config hsource calls⟩

end TokenTree
