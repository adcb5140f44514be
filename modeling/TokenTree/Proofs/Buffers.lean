import TokenTree.Proofs.Accounting
import TokenTree.Proofs.Joining

/-!
# Shared and copied text

The text of a piece is a view of the buffer that it was cut from. What is joined of such views is
again a view when all are of one buffer, since they follow each other there (`Lexeme.join_views`),
and is a copy when they are not (`Lexeme.join_mixed`). So whether a token shares its text is decided
at the token, by the buffers of its parts (`Groups.sourced`): one child that had to be copied has
a buffer of its own, which no part around it has, so that what is around it is copied, too.

For the tree of a whole input this means that all text is shared (`lexBuffer_views`).
-/

namespace TokenTree

namespace View

/-- Making one view of those that touch keeps the buffers that are viewed. -/
theorem mem_buffers_gather (v : View) (vs : List View) (b : Buffer) :
    b ∈ ((gather v vs).1 :: (gather v vs).2).map buffer ↔ b ∈ (v :: vs).map buffer := by
  induction vs generalizing v with
  | nil => rfl
  | cons w ws ih =>
    rw [gather]
    split
    · next wide h =>
      obtain ⟨touches, hwide, -⟩ := ends_of_append? h
      have hw : w.buffer = v.buffer := touches.2.symm
      rw [ih, List.map_cons, List.map_cons, List.map_cons, hwide, hw, List.mem_cons, List.mem_cons,
        List.mem_cons, or_self_left]
    · simp only [List.map_cons, List.mem_cons] at ih ⊢
      rw [ih]

end View

namespace Lexeme

/-! ## Views of a buffer -/

/-- The lexeme is one view of the buffer, whose first byte has offset `base`, and starts at offset
`pos`. -/
def Views (b : Buffer) (base pos : Nat) (l : Lexeme) : Prop :=
  ∃ v, l = .ofView v ∧ v.buffer = b ∧ base + v.start = pos

/-- The lexeme is the view of the buffer, whose first byte has offset `base`, at that span. -/
def ViewsAt (b : Buffer) (base : Nat) (span : Span) (l : Lexeme) : Prop :=
  l.view.buffer = b ∧ span = ⟨base + l.start, base + l.stop⟩

/-- The lexemes are what `P` says, each at the offset where the one before it ends. -/
def Follow (P : Nat → Lexeme → Prop) (pos : Nat) : List Lexeme → Prop
  | [] => True
  | l :: ls => P pos l ∧ Follow P (pos + Text.size l.text) ls

variable {b : Buffer} {base pos : Nat} {l m : Lexeme} {ls : List Lexeme}

theorem Views.buffer_view (h : l.Views b base pos) : l.view.buffer = b := by
  obtain ⟨v, rfl, hb, -⟩ := h
  exact hb

theorem Views.viewsAt (h : l.Views b base pos) :
    l.ViewsAt b base ⟨pos, pos + Text.size l.text⟩ := by
  obtain ⟨v, rfl, rfl, rfl⟩ := h
  obtain ⟨-, -, hstop⟩ := v.exists_rest
  refine ⟨rfl, ?_⟩
  rw [text_ofView, Nat.add_assoc, hstop]
  rfl

theorem Views.append? (h : l.Views b base pos) (h' : m.Views b base (pos + Text.size l.text)) :
    ∃ j, Lexeme.append? l m = some j ∧ j.Views b base pos := by
  obtain ⟨v, rfl, rfl, rfl⟩ := h
  obtain ⟨w, rfl, hb, hw⟩ := h'
  obtain ⟨-, -, hstop⟩ := v.exists_rest
  rw [text_ofView] at hw
  have htouch : v.stop = w.start := by omega
  refine ⟨.ofView ⟨v.buffer, v.start, w.stop, v.rest,
    v.inside.append (htouch ▸ hb ▸ w.inside)⟩, ?_, _, rfl, rfl, rfl⟩
  have hview : v.append? w = some _ := dif_pos ⟨htouch, hb.symm⟩
  show (if v.stop = w.start then (v.append? w).map ofView else none) = _
  rw [if_pos htouch, hview]
  rfl

/-- Views that follow each other in one buffer are joined without a copy. -/
theorem join_views (h : l.Views b base pos)
    (hls : Follow (fun pos l => l.Views b base pos) (pos + Text.size l.text) ls)
    (label : Option Nat) : (join label (l :: ls)).Views b base pos := by
  have hfold : ∃ j, ls.foldlM Lexeme.append? l = some j ∧ j.Views b base pos := by
    induction ls generalizing l with
    | nil => exact ⟨l, rfl, h⟩
    | cons m ls ih =>
      obtain ⟨hm, hls⟩ := hls
      obtain ⟨j, hj, hviews⟩ := h.append? hm
      have htext := text_append? hj
      rw [Nat.add_assoc, ← Text.size_append, ← htext] at hls
      obtain ⟨wide, hwide, hviews'⟩ := ih hviews hls
      refine ⟨wide, ?_, hviews'⟩
      rw [List.foldlM_cons, hj]
      exact hwide
  obtain ⟨j, hj, hviews⟩ := hfold
  rw [join, hj]
  exact hviews

/-! ## Copies -/

/-- The buffers of the views that the lexeme is made of. -/
def buffers (l : Lexeme) : List Buffer := l.views.map View.buffer

/-- The lexeme is a copy, into a buffer of its own, of text of several buffers as `P` says. -/
structure Mixed (P : Buffer → Prop) (l : Lexeme) : Prop where
  label : l.label = none
  buffers : ∀ b ∈ l.buffers, P b
  several : ∃ b ∈ l.buffers, ∃ b' ∈ l.buffers, b ≠ b'

/-- The lexeme is one view of a buffer as `P` says, or a copy of text of several. -/
def Sourced (P : Buffer → Prop) (l : Lexeme) : Prop :=
  (∃ v, l = .ofView v ∧ P v.buffer) ∨ l.Mixed P

variable {P : Buffer → Prop}

/-- A copy is all of its buffer. -/
theorem Mixed.view_eq (h : l.Mixed P) : ¬ l.others.isEmpty ∧ l.view = .whole ⟨none, l.text⟩ := by
  have hothers : ¬ l.others.isEmpty := by
    intro hnil
    obtain ⟨b, hb, b', hb', hne⟩ := h.several
    rw [Lexeme.buffers, views, List.isEmpty_iff.1 hnil] at hb hb'
    exact hne ((List.mem_singleton.1 hb).trans (List.mem_singleton.1 hb').symm)
  refine ⟨hothers, ?_⟩
  rw [view, if_neg hothers, h.label]

/-- What is joined without a copy is of one buffer. -/
theorem buffer_of_foldlM {j : Lexeme} (h : ls.foldlM Lexeme.append? l = some j) :
    ∀ m ∈ ls, m.view.buffer = l.view.buffer := by
  induction ls generalizing l with
  | nil => exact nofun
  | cons m ls ih =>
    rw [List.foldlM_cons] at h
    obtain ⟨wide, hwide, h⟩ := Option.bind_eq_some_iff.1 h
    obtain ⟨touches, -, hbuffer, -⟩ := ends_of_append? hwide
    refine List.forall_mem_cons.2 ⟨(touches_iff.1 touches).2.symm, fun n hn => ?_⟩
    exact (ih h n hn).trans hbuffer

/-- A copy is made of what its parts are made of. -/
theorem mem_buffers_join (hfold : ls.foldlM Lexeme.append? l = none) (label : Option Nat) :
    b ∈ (join label (l :: ls)).buffers ↔ ∃ m ∈ l :: ls, b ∈ m.buffers := by
  have hflat : (l.first :: (l.others ++ ls.flatMap views)).map View.buffer =
      (l :: ls).flatMap buffers := by
    show ((l :: ls).flatMap views).map View.buffer = _
    exact List.map_flatMap
  rw [join, hfold, ← List.mem_flatMap, ← hflat]
  exact View.mem_buffers_gather l.first (l.others ++ ls.flatMap views) b

/-- Text of several buffers is copied. -/
theorem join_mixed (hall : ∀ m ∈ l :: ls, m.Sourced P)
    (hne : ∃ m ∈ ls, m.view.buffer ≠ l.view.buffer) : (join none (l :: ls)).Mixed P := by
  obtain ⟨m, hm, hne⟩ := hne
  have hm := List.mem_cons_of_mem l hm
  have hfold : ls.foldlM Lexeme.append? l = none := by
    cases hfold : ls.foldlM Lexeme.append? l with
    | none => rfl
    | some j =>
      obtain rfl | hm := List.mem_cons.1 hm
      · exact absurd rfl hne
      · exact absurd (buffer_of_foldlM hfold m hm) hne
  have hjoin {b : Buffer} {n : Lexeme} (hn : n ∈ l :: ls) (hb : b ∈ n.buffers) :
      b ∈ (join none (l :: ls)).buffers := (mem_buffers_join hfold none).2 ⟨n, hn, hb⟩
  -- a part that is a copy has text of several buffers by itself
  have hmixed {n : Lexeme} (hn : n ∈ l :: ls) (h : n.Mixed P) :
      ∃ b ∈ (join none (l :: ls)).buffers, ∃ b' ∈ (join none (l :: ls)).buffers, b ≠ b' := by
    obtain ⟨b, hb, b', hb', hne⟩ := h.several
    exact ⟨b, hjoin hn hb, b', hjoin hn hb', hne⟩
  refine ⟨?_, ?_, ?_⟩
  · rw [join, hfold]
  · intro b hb
    obtain ⟨n, hn, hb⟩ := (mem_buffers_join hfold none).1 hb
    rcases hall n hn with ⟨v, rfl, hv⟩ | hn
    · rwa [List.mem_singleton.1 hb]
    · exact hn.buffers b hb
  · rcases hall l List.mem_cons_self with ⟨v, rfl, -⟩ | hl
    · rcases hall m hm with ⟨w, rfl, -⟩ | hm'
      · exact ⟨w.buffer, hjoin hm List.mem_cons_self, v.buffer,
          hjoin List.mem_cons_self List.mem_cons_self, hne⟩
      · exact hmixed hm hm'
    · exact hmixed List.mem_cons_self hl

/-! ## Text that came in several buffers -/

theorem Follow.imp {P Q : Nat → Lexeme → Prop} (h : Follow P pos ls)
    (himp : ∀ pos, ∀ l ∈ ls, P pos l → Q pos l) : Follow Q pos ls := by
  induction ls generalizing pos with
  | nil => trivial
  | cons l ls ih =>
    obtain ⟨hl, hls⟩ := h
    exact ⟨himp _ l List.mem_cons_self hl,
      ih hls fun pos m hm => himp pos m (List.mem_cons_of_mem _ hm)⟩

theorem Follow.exists_pos {P : Nat → Lexeme → Prop} (h : Follow P pos ls) :
    ∀ m ∈ ls, ∃ pos, P pos m := by
  induction ls generalizing pos with
  | nil => exact nofun
  | cons l ls ih => exact List.forall_mem_cons.2 ⟨⟨pos, h.1⟩, ih h.2⟩

theorem Follow.append {P : Nat → Lexeme → Prop} {ms : List Lexeme} (h : Follow P pos ls)
    (h' : Follow P (pos + Text.size (ls.flatMap text)) ms) : Follow P pos (ls ++ ms) := by
  induction ls generalizing pos with
  | nil => exact h'
  | cons l ls ih =>
    obtain ⟨hl, hls⟩ := h
    rw [List.flatMap_cons, Text.size_append, ← Nat.add_assoc] at h'
    exact ⟨hl, ih hls h'⟩

/-- The lexeme is a view of the buffer in which the text at offset `pos` came, where `src` says what
came in which buffer, and `base` what offset the first byte of a buffer has. -/
def Direct (src : Nat → Buffer) (base : Buffer → Nat) (pos : Nat) (l : Lexeme) : Prop :=
  l.Views (src pos) (base (src pos)) pos

/-- The lexeme is a copy of text that came in several buffers. -/
abbrev Copied (src : Nat → Buffer) : Lexeme → Prop := Mixed fun b => ∃ pos, src pos = b

/-- The lexeme is a view of the buffer in which the text at offset `pos` came, or a copy. -/
def Sound (src : Nat → Buffer) (base : Buffer → Nat) (pos : Nat) (l : Lexeme) : Prop :=
  l.Direct src base pos ∨ l.Copied src

variable {src : Nat → Buffer} {base : Buffer → Nat}

theorem Direct.views (h : l.Direct src base pos) (hb : l.view.buffer = b) :
    l.Views b (base b) pos := by
  have hsrc : src pos = b := h.buffer_view.symm.trans hb
  rw [← hsrc]
  exact h

theorem Direct.sourced (h : l.Direct src base pos) : l.Sourced fun b => ∃ pos, src pos = b := by
  obtain ⟨v, hl, hb, -⟩ := h
  exact Or.inl ⟨v, hl, pos, hb.symm⟩

/-- What is joined behind text that came in one buffer shares it exactly if all of it came in that
buffer. -/
theorem join_direct (hfresh : ∀ l : Lexeme, l.Copied src → ∀ pos, l.view.buffer ≠ src pos)
    (h : l.Direct src base pos)
    (hls : Follow (Sound src base) (pos + Text.size l.text) ls) :
    (join none (l :: ls)).Direct src base pos ∧ (∀ m ∈ ls, m.view.buffer = src pos) ∨
      (join none (l :: ls)).Copied src ∧ ¬ ∀ m ∈ ls, m.view.buffer = src pos := by
  by_cases hone : ∀ m ∈ ls, m.view.buffer = src pos
  · refine Or.inl ⟨join_views h (hls.imp fun pos' m hm hsound => ?_) none, hone⟩
    rcases hsound with hdirect | hcopied
    · exact hdirect.views (hone m hm)
    · exact absurd (hone m hm) (hfresh m hcopied pos)
  · refine Or.inr ⟨join_mixed ?_ ?_, hone⟩
    · refine List.forall_mem_cons.2 ⟨h.sourced, fun m hm => ?_⟩
      obtain ⟨_, hdirect | hcopied⟩ := hls.exists_pos m hm
      · exact hdirect.sourced
      · exact Or.inr hcopied
    · simpa [h.buffer_view] using hone

end Lexeme

/-! ## Pieces -/

/-- The pieces of a buffer are views of it, at their offsets. -/
theorem Scan.go_views (config : Config) (final : Bool) (base fuel : Nat) (seen : List Piece)
    (mode : Mode) (cursor : Cursor)
    (hseen : ∀ p ∈ seen.reverse, p.lexeme.Views cursor.buffer base p.span.start) :
    ∀ p ∈ (go config final base fuel seen mode cursor).pieces,
      p.lexeme.Views cursor.buffer base p.span.start := by
  induction fuel generalizing seen mode cursor with
  | zero => exact hseen
  | succ fuel ih =>
    rw [go]
    cases step config final mode cursor.rest with
    | piece kind count =>
      refine ih _ .normal (cursor.cut count).2 ?_
      rw [List.reverse_cons]
      exact List.forall_mem_append.2 ⟨hseen, List.forall_mem_singleton.2 ⟨_, rfl, rfl, rfl⟩⟩
    | enter mode' => exact ih seen mode' cursor hseen
    | wait mode' run => exact hseen
    | done => exact hseen

theorem Scan.ofBuffer_views (config : Config) (final : Bool) (base : Nat) (mode : Mode)
    (buffer : Buffer) : ∀ p ∈ (ofBuffer config final base mode buffer).pieces,
      p.lexeme.Views buffer base p.span.start :=
  go_views config final base _ [] mode (.ofBuffer buffer) (List.forall_mem_nil _)

/-! ## Tokens -/

open Token

/-- The brackets and the children of the token are of the buffer in which its start came. -/
def Token.Undivided (src : Nat → Buffer) (t : Token) : Prop :=
  (∀ d, t.IsBlock d → src (t.span.stop - 1) = src t.span.start) ∧
    ∀ u ∈ t.children, u.lexeme.view.buffer = src t.span.start

/-- The token shares the buffer in which its start came if all of it is there, and is copied if it
is not. -/
def Token.Sourced (src : Nat → Buffer) (base : Buffer → Nat) (t : Token) : Prop :=
  t.lexeme.Direct src base t.span.start ∧ t.Undivided src ∨
    t.lexeme.Copied src ∧ ¬ t.Undivided src

section

variable {src : Nat → Buffer} {base : Buffer → Nat} {ps : List Piece} {ts : List Token}

theorem Token.Sourced.sound {t : Token} (h : t.Sourced src base) :
    t.lexeme.Sound src base t.span.start := h.imp And.left And.left

theorem Token.Sits.follow {P : Nat → Lexeme → Prop} {pos : Nat} (h : Sits pos ts)
    (hts : ∀ t ∈ ts, P t.span.start t.lexeme) : Lexeme.Follow P pos (ts.map lexeme) := by
  induction ts generalizing pos with
  | nil => trivial
  | cons t ts ih =>
    obtain ⟨ht, hrest⟩ := h
    obtain ⟨hself, hothers⟩ := List.forall_mem_cons.1 hts
    rw [ht] at hself
    exact ⟨hself, ih hrest hothers⟩

theorem sourced_giveUp (hfresh : ∀ l : Lexeme, l.Copied src → ∀ pos, l.view.buffer ≠ src pos)
    {f : Frame} (hopener : f.opener.Direct src base f.start)
    (hsize : Text.size f.opener.text = 1) (hsits : Sits (f.start + 1) f.children.reverse)
    (hchildren : ∀ u ∈ f.children.reverse, u.Sourced src base) : f.giveUp.Sourced src base := by
  have hundivided : f.giveUp.Undivided src ↔
      ∀ m ∈ f.children.reverse.map lexeme, m.view.buffer = src f.start := by
    rw [List.forall_mem_map]
    exact and_iff_right nofun
  have hfollow := hsits.follow fun u hu => (hchildren u hu).sound
  rw [← hsize] at hfollow
  rw [Token.Sourced, hundivided]
  exact Lexeme.join_direct hfresh hopener hfollow

theorem sourced_close (hfresh : ∀ l : Lexeme, l.Copied src → ∀ pos, l.view.buffer ≠ src pos)
    {f : Frame} {closer : Lexeme} {stop : Nat} (hopener : f.opener.Direct src base f.start)
    (hsize : Text.size f.opener.text = 1) (hsits : Sits (f.start + 1) f.children.reverse)
    (hchildren : ∀ u ∈ f.children.reverse, u.Sourced src base)
    (hcloser : closer.Direct src base (stop - 1))
    (hplace : stop - 1 = f.start + 1 + Text.size (reconstruct f.children.reverse)) :
    (f.close closer stop).Sourced src base := by
  have hundivided : (f.close closer stop).Undivided src ↔
      ∀ m ∈ f.children.reverse.map lexeme ++ [closer], m.view.buffer = src f.start := by
    rw [List.forall_mem_append, List.forall_mem_map, List.forall_mem_singleton, hcloser.buffer_view,
      and_comm]
    refine and_congr_left fun _ => ⟨fun h => h f.delimiter rfl, fun h _ _ => h⟩
  have hfollow := hsits.follow fun u hu => (hchildren u hu).sound
  have htext : (f.children.reverse.map lexeme).flatMap Lexeme.text =
      reconstruct f.children.reverse := List.flatMap_map _ _ _
  rw [← hsize] at hfollow
  rw [Token.Sourced, hundivided]
  refine Lexeme.join_direct hfresh hopener (hfollow.append ⟨Or.inl ?_, trivial⟩)
  rw [htext, hsize, ← hplace]
  exact hcloser

/-- Whatever came in which buffer, each token made of pieces shares or copies as its parts say. -/
theorem Groups.sourced (hfresh : ∀ l : Lexeme, l.Copied src → ∀ pos, l.view.buffer ≠ src pos)
    (h : Groups ps ts) {pos : Nat} (hlaid : Laid pos ps)
    (hps : ∀ p ∈ ps, p.lexeme.Direct src base p.span.start) :
    ∀ t, Occurs t ts → t.Sourced src base := by
  induction h generalizing pos with
  | nil => exact fun t ht => absurd ht occurs_nil
  | leaf _ ih | unterminated _ ih | stray _ ih =>
    obtain ⟨-, hlaid⟩ := hlaid
    obtain ⟨hp, hps⟩ := List.forall_mem_cons.1 hps
    intro t ht
    rcases occurs_cons.1 ht with rfl | ht | ht
    · exact Or.inl ⟨hp, nofun, nofun⟩
    · exact absurd ht occurs_nil
    · exact ih hlaid hps t ht
  | @block d s s' l l' inside ps children ts hin _ ihin ih =>
    obtain ⟨hopener, hlaid⟩ := hlaid
    obtain ⟨hinside, hcloser, hrest⟩ := laid_append.1 hlaid
    obtain ⟨hl, hps⟩ := List.forall_mem_cons.1 hps
    obtain ⟨hpsin, hps⟩ := List.forall_mem_append.1 hps
    obtain ⟨hl', hps⟩ := List.forall_mem_cons.1 hps
    have hchildren := ihin hinside hpsin
    have hstart : s.start = pos := hopener.start_eq
    have hstart' : s'.start = pos + Text.size l.text + Text.size (textOf inside) := hcloser.start_eq
    have hstop : s'.stop - 1 = s'.start := by
      have hspan : s' = ⟨_, _⟩ := hcloser.span
      have htext : l'.text = [d.closer] := hcloser.closer d rfl
      rw [hspan, htext, d.size_closer, Nat.add_sub_cancel]
    have hblock : (Frame.close ⟨d, s.start, l, children.reverse⟩ l' s'.stop).Sourced src base := by
      refine sourced_close hfresh hl hopener.size_opener
        (Sits.inside hopener (hin.sits hinside)) (fun u hu => ?_) ?_ ?_
      · rw [List.reverse_reverse] at hu
        exact hchildren u (.here hu)
      · rw [hstop]
        exact hl'
      · rw [List.reverse_reverse, hin.reconstruct_eq, hstop, hstart', hstart, hopener.size_opener]
    intro t ht
    rcases occurs_cons.1 ht with rfl | ht | ht
    · exact hblock
    · rw [Frame.children_close] at ht
      exact hchildren t ht
    · exact ih hrest hps t ht
  | @unclosed d s l inside ps children ts hin _ ihin ih =>
    obtain ⟨hopener, hlaid⟩ := hlaid
    obtain ⟨hinside, hrest⟩ := laid_append.1 hlaid
    obtain ⟨hl, hps⟩ := List.forall_mem_cons.1 hps
    obtain ⟨hpsin, hps⟩ := List.forall_mem_append.1 hps
    have hchildren := ihin hinside hpsin
    have hunclosed : (Frame.giveUp ⟨d, s.start, l, children.reverse⟩).Sourced src base := by
      refine sourced_giveUp hfresh hl hopener.size_opener
        (Sits.inside hopener (hin.sits hinside)) fun u hu => ?_
      rw [List.reverse_reverse] at hu
      exact hchildren u (.here hu)
    intro t ht
    rcases occurs_cons.1 ht with rfl | ht | ht
    · exact hunclosed
    · rw [Frame.children_giveUp] at ht
      exact hchildren t ht
    · exact ih hrest hps t ht

/-- A token made of pieces that follow each other is as long as its text, and inside theirs. -/
theorem Groups.span_eq (h : Groups ps ts) (hlaid : Laid 0 ps) {t : Token} (ht : Occurs t ts) :
    t.span = ⟨t.span.start, t.span.start + Text.size t.text⟩ ∧
      t.span.stop ≤ Text.size (textOf ps) := by
  have hwhole : textOf ps = [] ++ (reconstruct ts ++ []) := by
    rw [List.append_nil, List.nil_append, h.reconstruct_eq]
  obtain ⟨left, right, hsplit, hspan⟩ := exists_split ht hwhole (h.sits hlaid) (h.framed hlaid)
  rw [hspan, hsplit, Text.size_append, Text.size_append]
  exact ⟨rfl, by simp only; omega⟩

end

/-- All tokens of a whole input view the buffer that holds it, at their spans. -/
theorem lexBuffer_views (config : Config) (buffer : Buffer) {t : Token}
    (ht : Occurs t (lexBuffer config buffer)) : t.lexeme.ViewsAt buffer 0 t.span := by
  have fits : Mode.normal.Fits config buffer.text := trivial
  obtain ⟨hlaid, -, -⟩ := Scan.ofBuffer_laid config true 0 buffer fits
  have hdirect : ∀ p ∈ (Scan.ofBuffer config true 0 .normal buffer).pieces,
      p.lexeme.Direct (fun _ => buffer) (fun _ => 0) p.span.start :=
    Scan.ofBuffer_views config true 0 .normal buffer
  have hgroups := (Nest.groups_build (Scan.ofBuffer config true 0 .normal buffer).pieces).1
  -- only one buffer is there to copy from
  have hnone (l : Lexeme) : ¬ l.Copied fun _ => buffer := by
    intro h
    obtain ⟨b, hb, b', hb', hne⟩ := h.several
    obtain ⟨_, hbuffer⟩ := h.buffers b hb
    obtain ⟨_, hbuffer'⟩ := h.buffers b' hb'
    exact hne (hbuffer.symm.trans hbuffer')
  have hsourced := hgroups.sourced (fun l hl => absurd hl (hnone l)) hlaid hdirect t ht
  rcases hsourced with ⟨hdirect, -⟩ | ⟨hcopied, -⟩
  · rw [(hgroups.span_eq hlaid ht).1]
    exact hdirect.viewsAt
  · exact absurd hcopied (hnone _)

end TokenTree
