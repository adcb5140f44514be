import TokenTree.Proofs.Saturation
import TokenTree.Proofs.Tiling

/-!
# Lexing can start again behind any token

Behind a token that stands outside of all blocks the tree of an input goes on as if the input began
there (`lex_restarts`): the tokens are those of the rest of the text, further on by the offset at
which it starts (`Token.shift`). Nothing in the text before has a say in them.

Three facts are put together. A scan is between two pieces in the same state as at the start of an
input (`Scans.exists_behind`). What the pieces behind a token are grouped into, and whether that is
lawful, does not depend on those before (`Groups.exists_append`), nor on the offset at which they
stand (`Groups.shift`, `Token.lawfulAll_shift`). And there is only one lawful way to group them
(`Nest.build_eq`).

The offset at which a token ends has to be where it ends, so that the input may have `maxOffset`
bytes and not more (`lex_restarts_fails_beyond`).
-/

namespace TokenTree

/-! ## Further on in an input -/

/-- The span further on by so many bytes. -/
def Span.shift (bytes : Nat) (s : Span) : Span := ⟨s.start + bytes, s.stop + bytes⟩

/-- The piece further on by so many bytes. -/
def Piece.shift (bytes : Nat) (p : Piece) : Piece := { p with span := p.span.shift bytes }

namespace Token

variable {bytes : Nat}

mutual

/-- The token, with all that is inside it, further on by so many bytes. -/
def shift (bytes : Nat) : Token → Token
  | leaf k s l => leaf k (s.shift bytes) l
  | group k s l ts => group k (s.shift bytes) l (shiftAll bytes ts)

/-- The tokens further on by so many bytes. -/
def shiftAll (bytes : Nat) : List Token → List Token
  | [] => []
  | t :: ts => shift bytes t :: shiftAll bytes ts

end

theorem shiftAll_eq (ts : List Token) : shiftAll bytes ts = ts.map (shift bytes) := by
  induction ts with
  | nil => rfl
  | cons t ts ih => rw [shiftAll, ih, List.map_cons]

@[simp] theorem span_shift (t : Token) : (t.shift bytes).span = t.span.shift bytes := by
  cases t <;> rfl

@[simp] theorem lexeme_shift (t : Token) : (t.shift bytes).lexeme = t.lexeme := by cases t <;> rfl

theorem lexemes_shift (ts : List Token) :
    (ts.map (shift bytes)).map lexeme = ts.map lexeme := by
  rw [List.map_map]
  exact congrArg (List.map · ts) (funext lexeme_shift)

mutual

theorem trail_shift : (t : Token) → trail (t.shift bytes) = trail t
  | leaf k s l => rfl
  | group (.block d) s l ts => rfl
  | group (.composite name) s l ts => rfl
  | group (.error (.stray d)) s l ts => rfl
  | group (.error .unterminatedComment) s l ts => rfl
  | group (.error (.unclosed d)) s l ts => by rw [shift, trail, trail, trailAll_shift ts]

theorem trailAll_shift : (ts : List Token) → trailAll (shiftAll bytes ts) = trailAll ts
  | [] => rfl
  | [t] => trail_shift t
  | _ :: t :: ts => trailAll_shift (t :: ts)

end

mutual

theorem lawful_shift (above : List Delimiter) : (t : Token) →
    (Lawful above (t.shift bytes) ↔ Lawful above t)
  | leaf k s l => Iff.rfl
  | group k s l ts => by
    rw [shift, Lawful, Lawful, trailAll_shift, lawfulAll_shiftAll (k.opened?.toList ++ above) ts]

theorem lawfulAll_shiftAll (above : List Delimiter) : (ts : List Token) →
    (LawfulAll above (shiftAll bytes ts) ↔ LawfulAll above ts)
  | [] => Iff.rfl
  | t :: ts => by
    have hnil : shiftAll bytes ts = [] ↔ ts = [] := by rw [shiftAll_eq, List.map_eq_nil_iff]
    rw [shiftAll, LawfulAll, LawfulAll, trail_shift, hnil, lawful_shift above t,
      lawfulAll_shiftAll above ts]

end

/-- The laws of recovery do not depend on where tokens stand. -/
theorem lawfulAll_shift {above : List Delimiter} {ts : List Token} :
    LawfulAll above (ts.map (shift bytes)) ↔ LawfulAll above ts := by
  rw [← shiftAll_eq, lawfulAll_shiftAll]

/-- What is lawful behind other tokens is so by itself. -/
theorem LawfulAll.behind {above : List Delimiter} {ts us : List Token}
    (h : LawfulAll above (ts ++ us)) : LawfulAll above us := by
  induction ts with
  | nil => exact h
  | cons t ts ih => exact ih h.2.2

end Token

open Token

variable {bytes : Nat}

/-- The frame further on by so many bytes. -/
def Frame.shift (bytes : Nat) (f : Frame) : Frame :=
  { f with start := f.start + bytes, children := f.children.map (Token.shift bytes) }

theorem Frame.shift_close (f : Frame) (closer : Lexeme) (stop : Nat) :
    (f.close closer stop).shift bytes = (f.shift bytes).close closer (stop + bytes) := by
  simp only [close, shift, Token.shift, shiftAll_eq, ← List.map_reverse, lexemes_shift]
  rfl

theorem Frame.shift_giveUp (f : Frame) :
    f.giveUp.shift bytes = (f.shift bytes).giveUp := by
  obtain ⟨delimiter, start, opener, children⟩ := f
  simp only [giveUp, shift, Token.shift, shiftAll_eq, ← List.map_reverse, lexemes_shift]
  -- the last child tells where the region stops
  cases children with
  | nil => simp [Span.shift, Nat.add_right_comm]
  | cons last rest => simp [Span.shift]

theorem Frame.shift_mk (d : Delimiter) (s : Span) (l : Lexeme) (children : List Token) :
    Frame.shift bytes ⟨d, s.start, l, children.reverse⟩ =
      ⟨d, (s.shift bytes).start, l, (children.map (Token.shift bytes)).reverse⟩ := by
  rw [shift, List.map_reverse]
  rfl

/-- Pieces are grouped in the same way wherever they stand. -/
theorem Groups.shift {ps : List Piece} {ts : List Token} (h : Groups ps ts) :
    Groups (ps.map (Piece.shift bytes)) (ts.map (Token.shift bytes)) := by
  induction h with
  | nil => exact .nil
  | leaf _ ih => exact .leaf ih
  | unterminated _ ih => exact .unterminated ih
  | stray _ ih => exact .stray ih
  | block _ _ ihin ih =>
    rw [List.map_cons, List.map_append, List.map_cons, List.map_cons, Frame.shift_close,
      Frame.shift_mk]
    exact .block ihin ih
  | unclosed _ _ ihin ih =>
    rw [List.map_cons, List.map_append, List.map_cons, Frame.shift_giveUp, Frame.shift_mk]
    exact .unclosed ihin ih

theorem layout_shift (pos : Nat) (cuts : List Cut) :
    layout (pos + bytes) cuts = (layout pos cuts).map (Piece.shift bytes) := by
  induction cuts generalizing pos with
  | nil => rfl
  | cons c cuts ih =>
    rw [layout, layout, List.map_cons, ← ih, Nat.add_right_comm]
    rfl

/-! ## What stands behind others -/

namespace Scans

variable {config : Config} {final : Bool} {text : Text} {after : List Cut} {stop : Stop}

theorem exists_behind_first {mode : Mode} {c : Cut}
    (h : Scans config final mode text (c :: after) stop) :
    ∃ rest, text = c.text ++ rest ∧ Scans config final .normal rest after stop := by
  generalize hcuts : c :: after = cuts at h
  induction h with
  | @piece mode text kind count cuts stop _ hscan _ =>
    cases hcuts
    exact ⟨text.drop count, (List.take_append_drop count text).symm, hscan⟩
  | enter _ _ ih => exact ih hcuts
  | wait _ => cases hcuts
  | done _ => cases hcuts

/-- Behind each piece a scan is in the state in which it would start. -/
theorem exists_behind {before : List Cut}
    (h : Scans config final .normal text (before ++ after) stop) :
    ∃ rest, text = before.flatMap Cut.text ++ rest ∧
      Scans config final .normal rest after stop := by
  induction before generalizing text with
  | nil => exact ⟨text, rfl, h⟩
  | cons c before ih =>
    obtain ⟨behind, rfl, hscan⟩ := h.exists_behind_first
    obtain ⟨rest, rfl, hrest⟩ := ih hscan
    refine ⟨rest, ?_, hrest⟩
    rw [List.flatMap_cons, List.append_assoc]

end Scans

/-- The last of the tokens are made of the last of the pieces. -/
theorem Groups.exists_append {ps : List Piece} {ts us : List Token} (h : Groups ps (ts ++ us)) :
    ∃ qs rs, ps = qs ++ rs ∧ Groups qs ts ∧ Groups rs us := by
  induction ts generalizing ps with
  | nil => exact ⟨[], ps, rfl, .nil, h⟩
  | cons t ts ih =>
    cases h with
    | leaf h =>
      obtain ⟨qs, rs, rfl, hqs, hrs⟩ := ih h
      exact ⟨_, rs, rfl, .leaf hqs, hrs⟩
    | unterminated h =>
      obtain ⟨qs, rs, rfl, hqs, hrs⟩ := ih h
      exact ⟨_, rs, rfl, .unterminated hqs, hrs⟩
    | stray h =>
      obtain ⟨qs, rs, rfl, hqs, hrs⟩ := ih h
      exact ⟨_, rs, rfl, .stray hqs, hrs⟩
    | block hin h =>
      obtain ⟨qs, rs, rfl, hqs, hrs⟩ := ih h
      refine ⟨_, rs, ?_, .block hin hqs, hrs⟩
      rw [List.cons_append, List.append_assoc, List.cons_append]
    | unclosed hin h =>
      obtain ⟨qs, rs, rfl, hqs, hrs⟩ := ih h
      refine ⟨_, rs, ?_, .unclosed hin hqs, hrs⟩
      rw [List.cons_append, List.append_assoc]

theorem exists_layout_append {pos : Nat} {ps qs : List Piece} {cuts : List Cut}
    (h : layout pos cuts = ps ++ qs) :
    ∃ before after, cuts = before ++ after ∧ layout pos before = ps ∧
      layout (pos + Text.size (before.flatMap Cut.text)) after = qs := by
  induction ps generalizing pos cuts with
  | nil => exact ⟨[], cuts, rfl, rfl, h⟩
  | cons p ps ih =>
    cases cuts with
    | nil => cases h
    | cons c cuts =>
      obtain ⟨hfirst, hrest⟩ := List.cons.inj h
      obtain ⟨before, after, rfl, hps, hqs⟩ := ih hrest
      refine ⟨c :: before, after, rfl, ?_, ?_⟩
      · rw [layout, hfirst, hps]
      · rw [List.flatMap_cons, Text.size_append, ← Nat.add_assoc]
        exact hqs

/-- Pieces that are equal but for their buffers make trees that are equal but for their buffers. -/
theorem Nest.build_congr {ps qs : List Piece} (h : ps.map Piece.detach = qs.map Piece.detach) :
    (build ps).map Token.detach = (build qs).map Token.detach := by
  have hfinish := finish_congr (foldl_push_congr (n := ⟨[], []⟩) rfl h)
  rw [build, build, List.map_reverse, List.map_reverse, (detach_inj.1 hfinish).2]

/-! ## Starting again -/

/-- The pieces that a text is cut into make the tree of the text wherever they stand. -/
theorem build_eq_lex {config : Config} {text : Text} {cuts : List Cut} {stop : Stop}
    (h : Scans config true .normal text cuts stop) {ps : List Piece}
    (hps : ps.map Piece.detach = layout bytes cuts) :
    (Nest.build ps).map Token.detach =
      ((lex config text).map (Token.shift bytes)).map Token.detach := by
  obtain ⟨qs, cuts', hlex, hscan, hqs⟩ := exists_build_lex config text
  obtain ⟨rfl, -⟩ := hscan.det h
  obtain ⟨hgroups, hlawful⟩ := Nest.groups_build qs
  have hshift : Nest.build (qs.map (Piece.shift bytes)) =
      (Nest.build qs).map (Token.shift bytes) :=
    Nest.build_eq hgroups.shift (lawfulAll_shift.2 hlawful)
  have hlayout := @layout_shift bytes 0 cuts'
  rw [Nat.zero_add, ← hqs] at hlayout
  rw [hlex, ← hshift]
  refine Nest.build_congr ?_
  rw [hps, hlayout, List.map_map, List.map_map]
  rfl

/-- Behind any of the tokens outside of all blocks the tree of an input is that of the rest of its
text, further on by the offset at which the token ends. -/
theorem lex_behind {config : Config} {source : Text} {before after : List Token}
    (h : lex config source = before ++ after) :
    ∃ head rest, source = head ++ rest ∧
      before.getLast?.elim 0 (·.span.stop) = Text.size head ∧
      Token.sameAll after ((lex config rest).map (Token.shift (Text.size head))) = true := by
  have fits : Mode.normal.Fits config source := trivial
  obtain ⟨ps, cuts, hlex, hscan, hpieces⟩ := exists_build_lex config source
  obtain ⟨hgroups, hlawful⟩ := Nest.groups_build ps
  rw [← hlex, h] at hgroups hlawful
  obtain ⟨qs, rs, rfl, hqs, hrs⟩ := hgroups.exists_append
  rw [List.map_append] at hpieces
  obtain ⟨left, right, rfl, hleft, hright⟩ := exists_layout_append hpieces.symm
  obtain ⟨rest, hsource, hbehind⟩ := hscan.exists_behind
  refine ⟨left.flatMap Cut.text, rest, hsource, ?_, Token.sameAll_iff.2 ?_⟩
  · obtain ⟨hlaid, htext⟩ := laid_of_layout hleft.symm fun c hc =>
      hscan.whole fits (List.mem_append_left _ hc)
    have hstop := stop_of_tiles (hqs.sits hlaid).tiles
    rw [hqs.reconstruct_eq, htext, Nat.zero_add] at hstop
    exact hstop
  · rw [Nat.zero_add] at hright
    rw [← Nest.build_eq hrs hlawful.behind]
    exact build_eq_lex hbehind hright.symm

/-- Lexing can start again behind any number of the tokens outside of all blocks: the other tokens
are those of the rest of the text by itself, with the same kinds and texts and with their spans, at
every depth, further on by the offset at which it starts. So what follows a token, such as a quote
that is a symbol because it has no partner, is what follows it in the tree of the text behind it. -/
theorem lex_restarts (config : Config) {source : Text} (hfit : Text.size source ≤ maxOffset) :
    Checked.lex config source = .ok (lex config source) ∧
    (∀ j, let offset := ((lex config source).take j).getLast?.elim 0 (·.span.stop)
      ∃ rest, source.dropBytes? offset = some rest ∧
        Token.sameAll ((lex config source).drop j)
          ((lex config rest).map (Token.shift offset)) = true) ∧
    ∀ before t after, lex config source = before ++ t :: after →
      ∃ rest, source.dropBytes? t.span.stop = some rest ∧
        Token.sameAll after ((lex config rest).map (Token.shift t.span.stop)) = true := by
  refine ⟨Checked.lex_eq config hfit, fun j => ?_, fun before t after h => ?_⟩
  · obtain ⟨head, rest, hsource, hoffset, hsame⟩ :=
      lex_behind (List.take_append_drop j (lex config source)).symm
    refine ⟨rest, ?_, ?_⟩
    · rw [hoffset, hsource, Text.dropBytes?_append]
    · rw [hoffset]
      exact hsame
  · rw [List.append_cons] at h
    obtain ⟨head, rest, hsource, hoffset, hsame⟩ := lex_behind h
    rw [List.getLast?_concat, Option.elim_some] at hoffset
    refine ⟨rest, ?_, ?_⟩
    · rw [hoffset, hsource, Text.dropBytes?_append]
    · rw [hoffset]
      exact hsame

/-- What stands behind a quote without a partner is what it would be by itself. -/
theorem lex_restarts_quote :
    let source : Text := ['"', 'a', '(']
    Text.size source ≤ maxOffset ∧ ((lex .default source).take 1).map Token.text = [['"']] ∧
      ∃ rest, source.dropBytes? 1 = some rest ∧
        Token.sameAll ((lex .default source).drop 1)
          ((lex .default rest).map (Token.shift 1)) = true := by
  intro source
  have hfit : Text.size source ≤ maxOffset := by decide
  have hoffset : ((lex .default source).take 1).getLast?.elim 0 (·.span.stop) = 1 := by
    decide +kernel
  have hrest := (lex_restarts .default hfit).2.1 1
  rw [hoffset] at hrest
  exact ⟨hfit, by decide +kernel, hrest⟩

/-- Two names are made of one letter more than there are offsets. Both end at the greatest offset,
and there the text goes on with a letter, behind which no token is left. -/
theorem lex_restarts_fails_beyond :
    let source : Text := List.replicate (maxOffset + 1) 'a'
    ∃ tokens rest others, Checked.lex .default source = .ok tokens ∧
      (tokens.take 2).getLast?.elim 0 (·.span.stop) = maxOffset ∧
      source.dropBytes? maxOffset = some rest ∧ Checked.lex .default rest = .ok others ∧
      Token.sameAll (tokens.drop 2) (others.map (Token.shift maxOffset)) = false := by
  intro source
  obtain ⟨first, second, -, -, -, -, hlex⟩ := Checked.lex_letters
  have hrest : source.dropBytes? maxOffset = some ['a'] := by
    have hsize := Text.size_replicate maxOffset (rfl : 'a'.utf8Size = 1)
    have hdrop := Text.dropBytes?_append (List.replicate maxOffset 'a') ['a']
    rwa [hsize, ← List.replicate_succ'] at hdrop
  have hothers : Checked.lex .default ['a'] = .ok (lex .default ['a']) :=
    Checked.lex_eq .default (by decide)
  have hsame : Token.sameAll [] ((lex .default ['a']).map (Token.shift maxOffset)) = false := by
    decide +kernel
  exact ⟨_, ['a'], _, hlex, rfl, hrest, hothers, hsame⟩

end TokenTree
