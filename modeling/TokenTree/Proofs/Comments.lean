import Mathlib.Data.List.TakeWhile
import TokenTree.Proofs.Places

/-!
# How far comments go

A comment is of the style with the longest start that stands there (`Config.Chooses`), and the style
says how far it goes (`CommentStyle.Covers`): up to the end of the line, or up to the first end mark
that begins behind the start. So it is with the first piece of any text (`FirstPiece.covers`) and
with every comment of a tree (`lex_comments`). A comment whose end mark is missing takes all of the
rest, so that nothing is behind it: it is the last token that walks meet
(`Groups.unterminated_last`), and there is one at most.

Comments are found behind the greatest offset, too, but with spans that do not tell where they end
(`lex_comments_fails_beyond`).
-/

namespace TokenTree

/-! ## Styles -/

/-- Of the comment styles that a text starts with the style has the longest start. -/
structure Config.Chooses (config : Config) (text : Text) (style : CommentStyle) : Prop where
  mem : style ∈ config.styles
  starts : style.start <+: text
  longest : ∀ other ∈ config.styles, other.start <+: text →
    other.start.length ≤ style.start.length

theorem Config.chooses_of_found {config : Config} {text : Text} {index : Nat}
    {style : CommentStyle} (h : config.commentAt text true = .found index style) :
    config.Chooses text style := by
  obtain ⟨hindex, hstarts⟩ := PrefixMatch.find_found h
  exact ⟨List.mem_of_getElem? hindex, hstarts, fun other hmem hother =>
    PrefixMatch.length_le_of_find_found h hmem hother⟩

/-- The piece is a comment of the style, with `body` behind its start and `after` behind its end. A
line comment stops before the first end of a line, or where the text stops. A block comment stops
behind the first end mark, or where the text stops and has no end mark. -/
def CommentStyle.Covers (style : CommentStyle) (kind : PieceKind) (body after : Text) : Prop :=
  match style.close with
  | none =>
    kind = .leaf (.comment .line) ∧ (∀ c ∈ body, c ≠ '\n' ∧ c ≠ '\r') ∧
      ∀ c ∈ after.head?, c = '\n' ∨ c = '\r'
  | some close =>
    (kind = .leaf (.comment .block) ∧ ∃ inside, body = inside ++ close ∧
      ∀ u v, body ++ after = u ++ (close ++ v) → inside.length ≤ u.length) ∨
    (kind = .unterminated ∧ after = [] ∧ ∀ u v, body ≠ u ++ (close ++ v))

/-- The piece is a comment. -/
def PieceKind.IsComment (kind : PieceKind) : Prop :=
  kind = .unterminated ∨ ∃ k, kind = .leaf (.comment k)

/-! ## Comments as first pieces -/

theorem Step.isLineEnd_iff {c : Char} : isLineEnd c = true ↔ c = '\n' ∨ c = '\r' := by
  simp [isLineEnd]

theorem Step.exists_line (t : Text) :
    ∃ line after, t = line ++ after ∧ line.length = t.findIdx isLineEnd ∧
      (∀ c ∈ line, isLineEnd c = false) ∧ ∀ c ∈ after.head?, isLineEnd c = true := by
  refine ⟨t.takeWhile (!isLineEnd ·), t.dropWhile (!isLineEnd ·), ?_, ?_, ?_, ?_⟩
  · exact List.takeWhile_append_dropWhile.symm
  · rw [List.takeWhile_eq_take_findIdx_not]
    simp only [Bool.not_not]
    exact List.length_take_of_le List.findIdx_le_length
  · intro c hc
    simpa using List.mem_takeWhile_imp hc
  · intro c hc
    have hstop := List.head?_dropWhile_not (!isLineEnd ·) t
    rw [Option.mem_def.1 hc] at hstop
    simpa using hstop

theorem Step.segment_not_comment {symbols : SymbolSet} {final : Bool} {cls : CharClass}
    {word after : Text} {kind : PieceKind} {count : Nat}
    (h : segment symbols final cls word after = .piece kind count) : ¬ kind.IsComment := by
  rintro (rfl | ⟨k, rfl⟩)
  · have hseg := segment_segmented symbols final cls word after
    rw [h] at hseg
    cases hseg
  · exact segment_ne_delimited rfl h

/-- A comment goes as far as the style with the longest start says. -/
theorem FirstPiece.covers {config : Config} {text after : Text} {kind : PieceKind}
    (h : FirstPiece config (text ++ after) kind text.length) (hkind : kind.IsComment) :
    ∃ style body, text = style.start ++ body ∧ config.Chooses (text ++ after) style ∧
      style.Covers kind body after := by
  generalize hwhole : text ++ after = whole at h ⊢
  generalize hcount : text.length = count at h
  cases h with
  | @lineComment index style rest hc hclose htext =>
    obtain ⟨line, behind, rfl, hline, hall, hstop⟩ := Step.exists_line rest
    have hcut : text ++ after = (style.start ++ line) ++ behind := by
      rw [hwhole, htext, List.append_assoc]
    have hlength : text.length = (style.start ++ line).length := by
      rw [hcount, List.length_append, hline]
    obtain ⟨rfl, rfl⟩ := List.append_inj hcut hlength
    refine ⟨style, line, rfl, Config.chooses_of_found hc, ?_⟩
    rw [CommentStyle.Covers, hclose]
    refine ⟨rfl, ?_, fun c hc => Step.isLineEnd_iff.1 (hstop c hc)⟩
    intro c hc
    have hnot := hall c hc
    rw [Bool.eq_false_iff, Ne, Step.isLineEnd_iff, not_or] at hnot
    exact hnot
  | @blockComment index style rest close n hc hclose htext hend =>
    obtain ⟨inside, behind, rfl, rfl⟩ := Text.exists_of_endOf? hend
    have hcut : text ++ after = (style.start ++ (inside ++ close)) ++ behind := by
      rw [hwhole, htext, List.append_assoc, List.append_assoc]
    have hlength : text.length = (style.start ++ (inside ++ close)).length := by
      rw [hcount, List.length_append, List.length_append]
    obtain ⟨rfl, rfl⟩ := List.append_inj hcut hlength
    refine ⟨style, inside ++ close, rfl, Config.chooses_of_found hc, ?_⟩
    rw [CommentStyle.Covers, hclose]
    refine Or.inl ⟨rfl, inside, rfl, ?_⟩
    intro u v huv
    rw [List.append_assoc] at huv
    have hfirst := Text.le_of_endOfFrom? hend huv (List.prefix_append close v)
    omega
  | @unterminated index style rest close hc hclose htext hend =>
    have hnil : after = [] := by
      rw [← hwhole, List.length_append] at hcount
      exact List.eq_nil_of_length_eq_zero (by omega)
    subst hnil
    rw [List.append_nil] at hwhole
    refine ⟨style, rest, hwhole.trans htext, Config.chooses_of_found hc, ?_⟩
    rw [CommentStyle.Covers, hclose]
    refine Or.inr ⟨rfl, rfl, ?_⟩
    intro u v huv
    exact Text.endOfFrom?_eq_none_iff.1 hend u (close ++ v) huv (List.prefix_append close v)
  | operator _ _ => rcases hkind with hkind | ⟨k, hkind⟩ <;> cases hkind
  | string _ _ _ _ => rcases hkind with hkind | ⟨k, hkind⟩ <;> cases hkind
  | quote _ _ _ _ => rcases hkind with hkind | ⟨k, hkind⟩ <;> cases hkind
  | segment _ _ _ hseg => exact absurd hkind (Step.segment_not_comment hseg)

/-! ## Comments without an end -/

open Token

/-- The token is a block comment without its end mark. -/
def Token.IsUnterminated (t : Token) : Prop := t.groupKind? = some (.error .unterminatedComment)

instance (t : Token) : Decidable t.IsUnterminated := by
  unfold Token.IsUnterminated
  infer_instance

/-- If nothing is behind an unterminated piece, no token is met behind an unterminated one. -/
theorem Groups.unterminated_last {ps : List Piece} {ts : List Token} (h : Groups ps ts)
    (hps : ∀ before p after, ps = before ++ p :: after → p.kind = .unterminated → after = []) :
    ∀ before t after, preorderAll ts = before ++ t :: after → t.IsUnterminated → after = [] := by
  intro before t after hwalk ht
  obtain ⟨qs, hsub, hbegins⟩ := h.exists_begun
  rw [hwalk] at hbegins
  have hbehind := List.forall₂_drop_append _ _ _ hbegins
  obtain ⟨p, rest, hp, hrest, hqs⟩ := List.forall₂_cons_right_iff.1 hbehind
  have hsub' : (p :: rest).Sublist ps := hqs ▸ (List.drop_sublist _ _).trans hsub
  obtain ⟨left, right, rfl, hmem, hright⟩ := List.cons_sublist_iff.1 hsub'
  obtain ⟨a, b, rfl⟩ := List.append_of_mem hmem
  have hnil : b ++ right = [] := by
    refine hps a p (b ++ right) ?_ (hp.unterminated ht)
    rw [List.append_assoc, List.cons_append]
  obtain ⟨-, rfl⟩ := List.append_eq_nil_iff.1 hnil
  obtain rfl := List.sublist_nil.1 hright
  exact List.forall₂_nil_left_iff.1 hrest

/-- Behind an unterminated comment there is nothing. -/
theorem unterminated_last_lex (config : Config) (source : Text) :
    ∀ before t after, preorderAll (lex config source) = before ++ t :: after →
      t.IsUnterminated → after = [] := by
  obtain ⟨ps, hgroups, hlaid, htext, hcut⟩ := exists_groups_lex config source
  refine hgroups.unterminated_last ?_
  rintro before p after rfl hkind
  obtain ⟨-, hstands, hafter⟩ := laid_append.1 hlaid
  rw [textOf_append, textOf_cons] at htext
  have hstart : p.span.start = Text.size (textOf before) := by rw [hstands.start_eq, Nat.zero_add]
  have hfirst := (hcut p (by simp)).first htext.symm hstart
  obtain ⟨style, body, -, -, hcovers⟩ := hfirst.covers (Or.inl hkind)
  have hnil : textOf after = [] := by
    unfold CommentStyle.Covers at hcovers
    split at hcovers
    · cases hkind.symm.trans hcovers.1
    · rcases hcovers with ⟨hblock, -⟩ | ⟨-, hnil, -⟩
      · cases hkind.symm.trans hblock
      · exact hnil
  cases after with
  | nil => rfl
  | cons p' after =>
    rw [textOf_cons] at hnil
    exact absurd (List.append_eq_nil_iff.1 hnil).1 hafter.1.ne_nil

theorem countP_le_one {α : Type} {p : α → Bool} {l : List α}
    (h : ∀ before a after, l = before ++ a :: after → p a = true → after = []) :
    l.countP p ≤ 1 := by
  induction l with
  | nil => exact Nat.zero_le 1
  | cons a l ih =>
    by_cases ha : p a = true
    · obtain rfl := h [] a l rfl ha
      exact List.countP_le_length
    · rw [List.countP_cons_of_neg ha]
      refine ih ?_
      rintro before b after rfl
      exact h (a :: before) b after rfl

/-! ## Tokens -/

/-- A piece of the kind with that text stands at the span as a comment of the style that the input
has there. -/
def PieceKind.Commented (config : Config) (source : Text) (kind : PieceKind) (span : Span)
    (text : Text) : Prop :=
  ∃ left style body after, source = left ++ (text ++ after) ∧
    span = ⟨Text.size left, Text.size left + Text.size text⟩ ∧ text = style.start ++ body ∧
    config.Chooses (text ++ after) style ∧ style.Covers kind body after

theorem Piece.CutFrom.commented {config : Config} {source : Text} {p : Piece}
    (h : p.CutFrom config source) (hkind : p.kind.IsComment) :
    p.kind.Commented config source p.span p.lexeme.text := by
  obtain ⟨left, after, hsource, hstands, hfirst⟩ := h
  obtain ⟨style, body, htext, hchooses, hcovers⟩ := hfirst.covers hkind
  exact ⟨left, style, body, after, hsource, hstands.span, htext, hchooses, hcovers⟩

/-- The token is no comment, or it has the extent that its style gives it. -/
def Token.Commented (config : Config) (source : Text) : Token → Prop
  | leaf (.comment k) s l => (PieceKind.leaf (.comment k)).Commented config source s l.text
  | group (.error .unterminatedComment) s l _ =>
    PieceKind.unterminated.Commented config source s l.text
  | _ => True

/-- Each comment of a tree is of the style with the longest start that stands there, and goes up to
the end of the line, or up to the first end mark, or else up to the end of the input. Of the last
kind there is one at most, and it is the last token without children. -/
theorem lex_comments (config : Config) {source : Text} (hfit : Text.size source ≤ maxOffset) :
    Checked.lex config source = .ok (lex config source) ∧
      (∀ t, Occurs t (lex config source) → t.Commented config source) ∧
      (walkErrors (lex config source)).countP (fun t => decide t.IsUnterminated) ≤ 1 ∧
      ∀ t, Occurs t (lex config source) → t.IsUnterminated →
        (flatten (lex config source)).getLast? = some t := by
  have hlast := unterminated_last_lex config source
  refine ⟨Checked.lex_eq config hfit, fun t ht => ?_, ?_, fun t ht hopen => ?_⟩
  · have hstems := lex_stems config source t ht
    cases t with
    | leaf k s l =>
      cases k with
      | comment k => exact Piece.CutFrom.commented hstems (Or.inr ⟨k, rfl⟩)
      | _ => trivial
    | group kind s l ts =>
      cases kind with
      | error e =>
        cases e with
        | unterminatedComment => exact Piece.CutFrom.commented hstems (Or.inl rfl)
        | _ => trivial
      | _ => trivial
  · rw [walkErrors_eq, List.countP_filter]
    refine countP_le_one ?_
    intro before t after hwalk ht
    rw [Bool.and_eq_true, decide_eq_true_eq] at ht
    exact hlast before t after hwalk ht.1
  · obtain ⟨before, after, hwalk⟩ := List.append_of_mem (mem_preorderAll_iff _ |>.2 ht)
    obtain rfl := hlast before t after hwalk hopen
    have hnil : t.children = [] := by
      refine (framed_lex ht).childless fun d => ⟨fun hd => ?_, fun hd => ?_⟩
      · cases hd.symm.trans hopen
      · cases hd.symm.trans hopen
    have hkeep : [t].filter (fun t => t.children.isEmpty) = [t] :=
      List.filter_cons_of_pos (List.isEmpty_iff.2 hnil)
    rw [flatten_eq, hwalk, List.filter_append, hkeep, List.getLast?_concat]

/-- The end mark of a comment shares nothing with its start. -/
theorem lex_comments_overlap :
    let source : Text := ['a', '/', '*', '/']
    Text.size source ≤ maxOffset ∧
      ∃ t, Occurs t (lex .default source) ∧ t.IsUnterminated ∧ t.text = ['/', '*', '/'] ∧
        t.Commented .default source ∧ (flatten (lex .default source)).getLast? = some t := by
  intro source
  have hfit : Text.size source ≤ maxOffset := by decide
  have ht : Occurs ((lex .default source).get ⟨1, by decide +kernel⟩) (lex .default source) :=
    .here (List.get_mem ..)
  have hopen : ((lex .default source).get ⟨1, by decide +kernel⟩).IsUnterminated := by
    decide +kernel
  obtain ⟨-, hextents, -, hlast⟩ := lex_comments .default hfit
  exact ⟨hfit, _, ht, hopen, by decide +kernel, hextents _ ht, hlast _ ht hopen⟩

/-- Behind more letters than there are offsets a comment has a span that is empty, and does not end
where its line does. -/
theorem lex_comments_fails_beyond :
    let source : Text := List.replicate (maxOffset + 1) 'a' ++ ['/', '/', 'x']
    ∃ tokens, Checked.lex .default source = .ok tokens ∧
      ¬ ∀ t, Occurs t tokens → t.Commented .default source := by
  intro source
  obtain ⟨first, second, third, hthird, hlex⟩ := Checked.lex_letters_comment
  refine ⟨_, hlex, fun h => ?_⟩
  obtain ⟨left, style, body, after, -, hspan, -⟩ := h _ (.here (List.mem_of_getElem? (i := 2) rfl))
  have hsize : Text.size (Lexeme.ofView third).text = 3 := by
    rw [Lexeme.text_ofView, hthird]
    rfl
  have hstart : maxOffset = Text.size left := congrArg Span.start hspan
  have hstop : maxOffset = Text.size left + Text.size (Lexeme.ofView third).text :=
    congrArg Span.stop hspan
  omega

end TokenTree
