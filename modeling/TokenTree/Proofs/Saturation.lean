import TokenTree.Proofs.Safety

/-!
# Beyond the greatest offset

Offsets stay at `maxOffset` when they would go beyond it, and a piece that is one segment lies where
the offsets of that segment say (`Checked.step_segment`). So up to `maxOffset` bytes the tree of an
input is the one that `lex` gives (`Checked.lex_eq`), but in a longer input a run may be cut in two,
the scanner may go back, and it may come to a place that it never leaves (`Checked.go_stuck`). Only
strings, comments and operators are found where they are however far behind (`Checked.step_mode`).

With these laws long inputs need not be evaluated. What is made of one that starts with more letters
than there are offsets is known for whatever stands behind the letters (`Checked.leads_crossing`).
-/

namespace TokenTree

namespace Text

theorem size_replicate (n : Nat) {c : Char} (hc : c.utf8Size = 1) :
    size (List.replicate n c) = n := by
  induction n with
  | zero => rfl
  | succ n ih => rw [List.replicate_succ, size_cons, hc, ih, Nat.add_comm]

end Text

namespace Checked

open Segmenter (offset)

/-! ## Steps of a whole input -/

section

variable {config : Config} {cursor : Cursor} {cls : CharClass} {word after : Text}

/-- Where no comment and no operator starts the step is decided by the segment, which starts and is
as long as offsets can say. -/
theorem step_segment (hc : config.commentAt cursor.rest true = .absent)
    (ho : config.operatorAt cursor.rest true = .absent)
    (hm : config.symbols.munch cursor.rest = some (cls, word, after)) :
    step config true 0 cursor.buffer.text .normal cursor.pos =
      segment config.symbols true 0 cursor.buffer.text cls (offset 0 cursor.pos)
        (offset 0 cursor.pos + offset 0 (Text.size word)) := by
  have hne : cursor.rest.isEmpty = false := by
    rw [List.isEmpty_eq_false_iff]
    intro hnil
    rw [hnil] at hm
    cases hm
  obtain ⟨before, htext, hpos⟩ := cursor.inside
  have hpeek := segmentAt_append config.symbols 0 before cursor.rest
  rw [← htext, hpos, hm, Option.map_some] at hpeek
  simp only [step, normal, cut_pos, ok_bind, hne, Bool.false_eq_true, if_false, hc, ho, peek, hpeek,
    mayExtend_true, range, minus, Nat.zero_le, if_true, Nat.sub_zero, pure_eq]

/-- Where a comment starts no segment is looked at. -/
theorem step_comment {index : Nat} {style : CommentStyle} (hne : cursor.rest ≠ [])
    (hc : config.commentAt cursor.rest true = .found index style) :
    step config true 0 cursor.buffer.text .normal cursor.pos = .ok (.enter (style.mode index)) := by
  have hstyle := itemAt_of (PrefixMatch.find_found hc).1
  simp only [step, normal, cut_pos, ok_bind, List.isEmpty_eq_false_iff.2 hne, Bool.false_eq_true,
    if_false, hc, hstyle, pure_eq]

/-- In a string or a comment the step is as exact as in a short input. -/
theorem step_mode {mode : Mode} (hmode : mode ≠ .normal) (fits : mode.Fits config cursor.rest)
    (hquoted : mode.Quoted cursor.rest) :
    step config true 0 cursor.buffer.text mode cursor.pos =
      .ok (.ofStep cursor.pos cursor.rest (TokenTree.step config true mode cursor.rest)) := by
  obtain ⟨before, htext, hpos⟩ := cursor.inside
  rw [htext, ← hpos]
  exact step_inside hmode fits hquoted

/-- A place where the scanner cuts off a piece that ends at that place is never left. -/
theorem go_stuck {final : Bool} {base : Nat} {kind : PieceKind} {v : View}
    (hbuffer : v.buffer = cursor.buffer) (hstop : v.stop = cursor.pos)
    (hstep : step config final base cursor.buffer.text .normal cursor.pos =
      .ok (.piece kind v.start v.stop)) (fuel : Nat) (seen : List Piece) :
    go config final base cursor.buffer fuel seen .normal cursor.pos = .error .endless := by
  have hlexeme : lexeme cursor.buffer v.start v.stop = .ok (.ofView v) := hbuffer ▸ lexeme_view v
  have hcut : cut cursor.buffer.text v.stop = .ok cursor.rest := hstop ▸ cut_pos cursor
  induction fuel generalizing seen with
  | zero => rfl
  | succ fuel ih =>
    rw [go_piece hstep hlexeme hcut, hstop]
    exact ih _

/-! ## Ways through a whole input -/

/-- In `n` steps the scanner comes from one place between pieces to another one, with more pieces
seen. -/
def Leads (config : Config) (n : Nat) (a : Cursor) (seen : List Piece) (b : Cursor)
    (seen' : List Piece) : Prop :=
  ∀ fuel, go config true 0 a.buffer (fuel + n) seen .normal a.pos =
    go config true 0 b.buffer fuel seen' .normal b.pos

theorem Leads.trans {n m : Nat} {a b c : Cursor} {seen seen' seen'' : List Piece}
    (h : Leads config n a seen b seen') (h' : Leads config m b seen' c seen'') :
    Leads config (m + n) a seen c seen'' := by
  intro fuel
  rw [← Nat.add_assoc, h, h']

theorem leads_cut {kind : PieceKind} {count : Nat}
    (hstep : step config true 0 cursor.buffer.text .normal cursor.pos =
      .ok (.piece kind cursor.pos (cursor.cut count).2.pos)) (seen : List Piece) :
    Leads config 1 cursor seen (cursor.cut count).2
      (⟨kind, ⟨offset 0 cursor.pos, offset 0 (cursor.cut count).2.pos⟩,
        .ofView (cursor.cut count).1⟩ :: seen) :=
  fun fuel => go_cut hstep fuel seen

/-- A string or a comment is entered and cut off. -/
theorem leads_enter {mode : Mode} {kind : PieceKind} {count : Nat}
    (henter : step config true 0 cursor.buffer.text .normal cursor.pos = .ok (.enter mode))
    (hstep : step config true 0 cursor.buffer.text mode cursor.pos =
      .ok (.piece kind cursor.pos (cursor.cut count).2.pos)) (seen : List Piece) :
    Leads config 2 cursor seen (cursor.cut count).2
      (⟨kind, ⟨offset 0 cursor.pos, offset 0 (cursor.cut count).2.pos⟩,
        .ofView (cursor.cut count).1⟩ :: seen) :=
  fun fuel => (go_enter henter (fuel + 1) seen).trans (go_cut hstep fuel seen)

/-- The steps end where no text is left, and the pieces seen so far make the tree. -/
theorem lex_of_leads {source : Text} {seen : List Piece} {n : Nat} (hrest : cursor.rest = [])
    (h : Leads config n (.ofBuffer ⟨some 0, source⟩) [] cursor seen)
    (hn : n ≤ 2 * source.length) :
    lex config source = .ok (seen.reverse.foldl Nest.push ⟨[], []⟩).finish.tokens.reverse := by
  obtain ⟨fuel, hfuel⟩ := Nat.exists_eq_add_of_le hn
  have hstep : step config true 0 cursor.buffer.text .normal cursor.pos = .ok .done := by
    simp only [step, normal, cut_pos, hrest, ok_bind, List.isEmpty_nil, if_true, pure_eq]
  have hlast : go config true 0 cursor.buffer (fuel + 1) seen .normal cursor.pos =
      .ok ⟨seen.reverse, .normal, cursor.pos, none⟩ := by
    rw [go, hstep]
    rfl
  have hgo := (h (fuel + 1)).trans hlast
  rw [Nat.add_right_comm, Nat.add_comm fuel n, ← hfuel] at hgo
  have hgo : go config true 0 ⟨some 0, source⟩ (2 * source.length + 1) [] .normal 0 = _ := hgo
  rw [lex, lexBuffer, scanBuffer, hgo]
  rfl

end

/-! ## Letters -/

/-- No letter stands where the text starts. -/
def NoLetter (t : Text) : Prop := ∀ c ∈ t.head?, Config.default.symbols.classOf c ≠ .run .text

/-- What is cut off from letters. -/
theorem cut_letters {cursor : Cursor} {n count : Nat} {after : Text}
    (hrest : cursor.rest = List.replicate n 'a' ++ after) (hcount : count ≤ n) :
    (cursor.cut count).1.text = List.replicate count 'a' ∧
      (cursor.cut count).2.pos = cursor.pos + count ∧
      (cursor.cut count).2.rest = List.replicate (n - count) 'a' ++ after := by
  have hlength : count ≤ (List.replicate n 'a').length := by rwa [List.length_replicate]
  have htake : cursor.rest.take count = List.replicate count 'a' := by
    rw [hrest, List.take_append_of_le_length hlength, List.take_replicate, Nat.min_eq_left hcount]
  refine ⟨by rw [View.text_cut, htake], ?_, ?_⟩
  · show cursor.pos + Text.size (cursor.rest.take count) = cursor.pos + count
    rw [htake, Text.size_replicate count rfl]
  · show cursor.rest.drop count = List.replicate (n - count) 'a' ++ after
    rw [hrest, List.drop_append_of_le_length hlength, List.drop_replicate]

/-- A run of letters is a name, but one that is not longer than the greatest offset. -/
theorem step_letters {cursor : Cursor} {n : Nat} {after : Text} (hn : 0 < n)
    (hrest : cursor.rest = List.replicate n 'a' ++ after) (hafter : NoLetter after)
    (hpos : cursor.pos ≤ maxOffset) :
    step .default true 0 cursor.buffer.text .normal cursor.pos =
      .ok (.piece (.leaf .ident) cursor.pos (cursor.cut (min n maxOffset)).2.pos) := by
  have hm : Config.default.symbols.munch cursor.rest =
      some (.run .text, List.replicate n 'a', after) := by
    rw [hrest]
    refine SymbolSet.munch_of_all_append ?_ (fun c hmem => ?_) hafter
    · rw [Ne, List.replicate_eq_nil_iff]
      exact hn.ne'
    · rw [List.eq_of_mem_replicate hmem]
      rfl
  have hplain : Config.default.commentAt cursor.rest true = .absent ∧
      Config.default.operatorAt cursor.rest true = .absent := by
    rw [hrest, ← Nat.succ_pred_eq_of_pos hn, List.replicate_succ]
    exact ⟨rfl, rfl⟩
  have hstart : offset 0 cursor.pos = cursor.pos := by
    rw [Segmenter.offset_eq (by omega), Nat.zero_add]
  have hlength : offset 0 (Text.size (List.replicate n 'a')) = min n maxOffset := by
    rw [Text.size_replicate _ rfl, offset, Nat.zero_add]
  have hstop := (cut_letters hrest (Nat.min_le_left n maxOffset)).2.1
  rw [step_segment hplain.1 hplain.2 hm, hstart, hlength, hstop]
  rfl

/-- One step takes the letters, if they are not more than there are offsets. -/
theorem leads_letters {cursor : Cursor} {n : Nat} {after : Text} (hn : 0 < n)
    (hrest : cursor.rest = List.replicate n 'a' ++ after) (hafter : NoLetter after)
    (hpos : cursor.pos ≤ maxOffset) (seen : List Piece) :
    Leads .default 1 cursor seen (cursor.cut (min n maxOffset)).2
      (⟨.leaf .ident, ⟨cursor.pos, min (cursor.pos + min n maxOffset) maxOffset⟩,
        .ofView (cursor.cut (min n maxOffset)).1⟩ :: seen) := by
  have hleads := leads_cut (step_letters hn hrest hafter hpos) seen
  have hstop := (cut_letters hrest (Nat.min_le_left n maxOffset)).2.1
  rwa [hstop, offset, offset, Nat.zero_add, Nat.zero_add, Nat.min_eq_left hpos] at hleads

/-- A run of letters that is longer than offsets can say is cut in two, and the second part has a
span that is empty. The scanner goes on behind it. -/
theorem leads_crossing {after : Text} (hafter : NoLetter after) :
    ∃ (first second : View) (next : Cursor),
      next.pos = maxOffset + 1 ∧ next.rest = after ∧
      first.text = List.replicate maxOffset 'a' ∧ second.text = ['a'] ∧
      second.buffer = next.buffer ∧ second.start = maxOffset ∧ second.stop = maxOffset + 1 ∧
      Leads .default 2 (.ofBuffer ⟨some 0, List.replicate (maxOffset + 1) 'a' ++ after⟩) [] next
        [⟨.leaf .ident, ⟨maxOffset, maxOffset⟩, .ofView second⟩,
          ⟨.leaf .ident, ⟨0, maxOffset⟩, .ofView first⟩] := by
  let start : Cursor := .ofBuffer ⟨some 0, List.replicate (maxOffset + 1) 'a' ++ after⟩
  let middle : Cursor := (start.cut maxOffset).2
  have hmin : min (maxOffset + 1) maxOffset = maxOffset := Nat.min_eq_right (Nat.le_succ _)
  have hzero : start.pos = 0 := rfl
  obtain ⟨htext, hmiddle, hrest⟩ := cut_letters (rfl : start.rest = _) (Nat.le_succ maxOffset)
  have hfirst := leads_letters (Nat.succ_pos maxOffset) (rfl : start.rest = _) hafter
    (Nat.zero_le maxOffset) []
  rw [hzero, Nat.zero_add] at hmiddle
  rw [hmin, hzero, Nat.zero_add, Nat.min_self] at hfirst
  -- the letter that the first step leaves is a run by itself
  rw [Nat.add_sub_cancel_left] at hrest
  obtain ⟨htext', hpos, hrest'⟩ := cut_letters hrest (Nat.le_refl 1)
  have hsecond := leads_letters Nat.one_pos hrest hafter (Nat.le_of_eq hmiddle)
    [⟨.leaf .ident, ⟨0, maxOffset⟩, .ofView (start.cut maxOffset).1⟩]
  rw [hmiddle] at hpos
  rw [hmiddle, show min 1 maxOffset = 1 from rfl, hmin] at hsecond
  refine ⟨(start.cut maxOffset).1, (middle.cut 1).1, (middle.cut 1).2, hpos, ?_, htext, htext', rfl,
    hmiddle, hpos, hfirst.trans hsecond⟩
  rw [hrest', Nat.sub_self]
  rfl

/-! ## Trees of long inputs -/

/-- Letters alone. -/
theorem lex_letters :
    ∃ first second : View,
      first.text = List.replicate maxOffset 'a' ∧ second.text = ['a'] ∧
      second.start = maxOffset ∧ second.stop = maxOffset + 1 ∧
      lex .default (List.replicate (maxOffset + 1) 'a') =
        .ok [.leaf .ident ⟨0, maxOffset⟩ (.ofView first),
          .leaf .ident ⟨maxOffset, maxOffset⟩ (.ofView second)] := by
  have hafter : NoLetter [] := by rintro _ ⟨⟩
  obtain ⟨first, second, next, -, hrest, hfirst, hsecond, -, hstart, hstop, hleads⟩ :=
    leads_crossing hafter
  rw [List.append_nil] at hleads
  have hlength : 2 ≤ 2 * (List.replicate (maxOffset + 1) 'a').length := by
    rw [List.length_replicate]
    omega
  exact ⟨first, second, hfirst, hsecond, hstart, hstop, lex_of_leads hrest hleads hlength⟩

/-- Letters with one string or one comment behind them: its span is empty, too. -/
theorem lex_letters_enter {after : Text} {mode : Mode} {kind : LeafKind} (hafter : NoLetter after)
    (henter : ∀ cursor : Cursor, cursor.rest = after →
      step .default true 0 cursor.buffer.text .normal cursor.pos = .ok (.enter mode))
    (hnormal : TokenTree.step .default true .normal after = .enter mode)
    (hstep : TokenTree.step .default true mode after = .piece (.leaf kind) after.length) :
    ∃ first second third : View, third.text = after ∧
      lex .default (List.replicate (maxOffset + 1) 'a' ++ after) =
        .ok [.leaf .ident ⟨0, maxOffset⟩ (.ofView first),
          .leaf .ident ⟨maxOffset, maxOffset⟩ (.ofView second),
          .leaf kind ⟨maxOffset, maxOffset⟩ (.ofView third)] := by
  obtain ⟨first, second, next, hpos, rfl, -, -, -, -, -, hleads⟩ := leads_crossing hafter
  obtain ⟨-, hmode, fits⟩ := step_enter hnormal
  let all := next.cut next.rest.length
  have hpiece : step .default true 0 next.buffer.text mode next.pos =
      .ok (.piece (.leaf kind) next.pos all.2.pos) := by
    rw [step_mode hmode fits (quoted_enter hnormal), hstep]
    rfl
  have hlast := leads_enter (henter next rfl) hpiece
    [⟨.leaf .ident, ⟨maxOffset, maxOffset⟩, .ofView second⟩,
      ⟨.leaf .ident, ⟨0, maxOffset⟩, .ofView first⟩]
  have hle : next.pos ≤ (next.cut next.rest.length).2.pos := Nat.le_add_right _ _
  rw [Segmenter.offset_of_le (by omega), Segmenter.offset_of_le (by omega)] at hlast
  have hbehind : all.2.rest = [] := List.drop_length
  have hlength : 2 + 2 ≤ 2 * (List.replicate (maxOffset + 1) 'a' ++ next.rest).length := by
    have hpos : 0 < next.rest.length := by
      rw [List.length_pos_iff]
      intro hnil
      rw [hnil] at hnormal
      cases hnormal
    rw [List.length_append, List.length_replicate]
    omega
  refine ⟨first, second, all.1, by rw [View.text_cut, List.take_length], ?_⟩
  exact lex_of_leads hbehind (hleads.trans hlast) hlength

/-- A string behind the letters. -/
theorem lex_letters_string :
    ∃ first second third : View, third.text = ['"', 'x', '"'] ∧
      lex .default (List.replicate (maxOffset + 1) 'a' ++ ['"', 'x', '"']) =
        .ok [.leaf .ident ⟨0, maxOffset⟩ (.ofView first),
          .leaf .ident ⟨maxOffset, maxOffset⟩ (.ofView second),
          .leaf (.string .double) ⟨maxOffset, maxOffset⟩ (.ofView third)] := by
  have hafter : NoLetter ['"', 'x', '"'] := by
    rintro _ ⟨⟩
    decide
  refine lex_letters_enter hafter (fun cursor hrest => ?_) rfl rfl
  have hm : Config.default.symbols.munch cursor.rest =
      some (.atom (.quote .double), ['"'], ['x', '"']) := by
    rw [hrest]
    rfl
  rw [step_segment (by rw [hrest]; rfl) (by rw [hrest]; rfl) hm]
  rfl

/-- A comment behind the letters. -/
theorem lex_letters_comment :
    ∃ first second third : View, third.text = ['/', '/', 'x'] ∧
      lex .default (List.replicate (maxOffset + 1) 'a' ++ ['/', '/', 'x']) =
        .ok [.leaf .ident ⟨0, maxOffset⟩ (.ofView first),
          .leaf .ident ⟨maxOffset, maxOffset⟩ (.ofView second),
          .leaf (.comment .line) ⟨maxOffset, maxOffset⟩ (.ofView third)] := by
  have hafter : NoLetter ['/', '/', 'x'] := by
    rintro _ ⟨⟩
    decide
  refine lex_letters_enter hafter (fun cursor hrest => ?_) rfl rfl
  have hc : Config.default.commentAt cursor.rest true = .found 0 ⟨['/', '/'], none⟩ := by
    rw [hrest]
    rfl
  exact step_comment (by rw [hrest]; simp) hc

/-- As many letters as there are offsets in an open block, which has no end beyond the greatest
offset. -/
theorem lex_opener_letters :
    ∃ whole letters : Lexeme, whole.text = '(' :: List.replicate maxOffset 'a' ∧
      letters.text = List.replicate maxOffset 'a' ∧
      lex .default ('(' :: List.replicate maxOffset 'a') =
        .ok [.group (.error (.unclosed .paren)) ⟨0, maxOffset⟩ whole
          [.leaf .ident ⟨1, maxOffset⟩ letters]] := by
  let start : Cursor := .ofBuffer ⟨some 0, '(' :: List.replicate maxOffset 'a'⟩
  let inside : Cursor := (start.cut 1).2
  have hm : Config.default.symbols.munch start.rest =
      some (.atom (.opening .paren), ['('], List.replicate maxOffset 'a') := rfl
  have hopening : step .default true 0 start.buffer.text .normal start.pos =
      .ok (.piece (.opener .paren) start.pos inside.pos) := by
    rw [step_segment rfl rfl hm]
    rfl
  have hone : 1 ≤ maxOffset := by decide
  have hinside : inside.pos = 1 := rfl
  have hrest : inside.rest = List.replicate maxOffset 'a' ++ [] := (List.append_nil _).symm
  have hfirst := leads_cut hopening []
  have hsecond := leads_letters hone hrest (by rintro _ ⟨⟩) hone
    [⟨.opener .paren, ⟨0, 1⟩, .ofView (start.cut 1).1⟩]
  rw [hinside, Nat.min_self, Nat.min_eq_right (Nat.le_add_left maxOffset 1)] at hsecond
  obtain ⟨htext, -, hnone⟩ := cut_letters hrest (Nat.le_refl maxOffset)
  rw [Nat.sub_self] at hnone
  have hlength : 2 ≤ 2 * ('(' :: List.replicate maxOffset 'a').length := by
    rw [List.length_cons]
    omega
  let opener : Lexeme := .ofView (start.cut 1).1
  let letters : Lexeme := .ofView (inside.cut maxOffset).1
  have hopener : opener.text = ['('] := by
    rw [Lexeme.text_ofView, View.text_cut]
    rfl
  have hletters : letters.text = List.replicate maxOffset 'a' :=
    (Lexeme.text_ofView _).trans htext
  refine ⟨.join none [opener, letters], letters, ?_, hletters,
    lex_of_leads hnone (hfirst.trans hsecond) hlength⟩
  rw [Lexeme.text_join, List.flatMap_cons, List.flatMap_cons, List.flatMap_nil, hopener, hletters,
    List.append_nil]
  rfl

/-- The last of these letters is behind the end of the block, and so it is given once more when the
text is put together. -/
theorem expand?_opener_letters {kind : GroupKind} {whole letters : Lexeme}
    (hwhole : whole.text = '(' :: List.replicate maxOffset 'a')
    (hletters : letters.text = List.replicate maxOffset 'a') :
    Token.expand? [.group kind ⟨0, maxOffset⟩ whole [.leaf .ident ⟨1, maxOffset⟩ letters]] =
      some (('(' :: List.replicate maxOffset 'a') ++ ['a']) := by
  have hsize : Text.size (List.replicate maxOffset 'a') = maxOffset := Text.size_replicate _ rfl
  have hhead : whole.slice? 0 (1 - 0) = some ['('] := by
    rw [Lexeme.slice?_eq, Text.slice?_eq_some_iff]
    exact ⟨[], _, hwhole, rfl, rfl⟩
  have htail : whole.slice? (maxOffset - 0) whole.length = some ['a'] := by
    rw [Lexeme.slice?_eq, ← Lexeme.size_text, Text.slice?_eq_some_iff]
    refine ⟨'(' :: List.replicate (maxOffset - 1) 'a', [], ?_, ?_, ?_⟩
    · rw [hwhole, List.append_nil, List.cons_append, ← List.replicate_succ']
      rfl
    · rw [Text.size_cons, Text.size_replicate _ rfl]
      rfl
    · rw [hwhole, Nat.sub_zero, Text.size_cons '(', hsize, Nat.add_comm]
      rfl
  have hmargins : Token.margins? ⟨0, maxOffset⟩ whole ⟨1, maxOffset⟩ ⟨1, maxOffset⟩ =
      some (['('], ['a']) := by
    rw [Token.margins?, if_neg (by simp), hhead, htail]
    rfl
  simp only [Token.expand?, Token.expandAllOnto, Token.expandOnto, List.head?_cons,
    List.getLast?_singleton, Token.span, hmargins, hletters]
  simp [List.reverseAux_eq]

/-- A symbol behind the letters starts, by its offset, where the last of the letters does. The
scanner cuts off that letter and is at the symbol again. -/
theorem go_letters_symbol (fuel : Nat) :
    go .default true 0 ⟨some 0, List.replicate (maxOffset + 1) 'a' ++ ['+']⟩ (fuel + 2) []
      .normal 0 = .error .endless := by
  have hafter : NoLetter ['+'] := by
    rintro _ ⟨⟩
    decide
  obtain ⟨first, second, next, hpos, hrest, -, -, hbuffer, hstart, hstop, hleads⟩ :=
    leads_crossing hafter
  have hstep : step .default true 0 next.buffer.text .normal next.pos =
      .ok (.piece (.leaf .symbol) second.start second.stop) := by
    have hm : Config.default.symbols.munch next.rest = some (.symbol, ['+'], []) := by
      rw [hrest]
      rfl
    have hoffset : offset 0 next.pos = maxOffset := Segmenter.offset_of_le (by omega)
    rw [step_segment (by rw [hrest]; rfl) (by rw [hrest]; rfl) hm, hoffset, hstart, hstop]
    rfl
  exact (hleads fuel).trans (go_stuck hbuffer (hstop.trans hpos.symm) hstep fuel _)

end Checked

end TokenTree
