import Mathlib.Data.List.Forall2
import TokenTree.Proofs.Quoted
import TokenTree.Proofs.Restart
import TokenTree.Proofs.Walk

/-!
# What stands where tokens stand

What a complete text starts with is all that decides about its first piece (`FirstPiece`), and each
piece of an input is the first piece of what the input is from there on (`Piece.CutFrom`). Tokens
are made of pieces: a token starts with one, and a block ends with one (`lex_stems`). So what there
is to say about the places of tokens is what there is to say about first pieces, one constructor of
`FirstPiece` at a time. And walks meet the tokens in the order of the pieces that they start with
(`Groups.exists_begun`).
-/

namespace TokenTree

/-! ## The first piece of a text -/

/-- The first piece of a complete text is of that kind and has so many characters. Comments come
before operators, and operators before all else. -/
inductive FirstPiece (config : Config) (text : Text) : PieceKind → Nat → Prop
  | lineComment {index : Nat} {style : CommentStyle} {body : Text}
      (hc : config.commentAt text true = .found index style) (hclose : style.close = none)
      (htext : text = style.start ++ body) :
    FirstPiece config text (.leaf (.comment .line))
      (style.start.length + body.findIdx Step.isLineEnd)
  | blockComment {index : Nat} {style : CommentStyle} {body close : Text} {count : Nat}
      (hc : config.commentAt text true = .found index style) (hclose : style.close = some close)
      (htext : text = style.start ++ body) (hend : body.endOf? close = some count) :
    FirstPiece config text (.leaf (.comment .block)) (style.start.length + count)
  | unterminated {index : Nat} {style : CommentStyle} {body close : Text}
      (hc : config.commentAt text true = .found index style) (hclose : style.close = some close)
      (htext : text = style.start ++ body) (hend : body.endOf? close = none) :
    FirstPiece config text .unterminated text.length
  | operator {index : Nat} {operator : Text} (hc : config.commentAt text true = .absent)
      (ho : config.operatorAt text true = .found index operator) :
    FirstPiece config text (.leaf .operator) operator.length
  | string {q : Quote} {after : Text} {count : Nat} (hc : config.commentAt text true = .absent)
      (ho : config.operatorAt text true = .absent) (htext : text = q.char :: after)
      (hend : Step.findQuote q.char false 1 after = .closed count) :
    FirstPiece config text (.leaf (.string q)) count
  | quote {q : Quote} {after : Text} {escaped : Bool}
      (hc : config.commentAt text true = .absent) (ho : config.operatorAt text true = .absent)
      (htext : text = q.char :: after)
      (hend : Step.findQuote q.char false 1 after = .unfinished escaped) :
    FirstPiece config text (.leaf .symbol) 1
  | segment {cls : CharClass} {word after : Text} {kind : PieceKind} {count : Nat}
      (hc : config.commentAt text true = .absent) (ho : config.operatorAt text true = .absent)
      (hm : config.symbols.munch text = some (cls, word, after))
      (hseg : Step.segment config.symbols true cls word after = .piece kind count) :
    FirstPiece config text kind count

namespace FirstPiece

variable {config : Config} {text : Text} {kind : PieceKind} {count : Nat}

theorem of_comment {index : Nat} {style : CommentStyle}
    (hc : config.commentAt text true = .found index style)
    (h : step config true (style.mode index) text = .piece kind count) :
    FirstPiece config text kind count := by
  obtain ⟨-, body, hbody⟩ := PrefixMatch.find_found hc
  have hseek : text.seek (Text.size style.start) = (style.start.length, body) := by
    rw [← hbody, Text.seek_behind]
  cases hclose : style.close with
  | none =>
    have hcount : (PieceKind.leaf (.comment .line), style.start.length +
        body.findIdx Step.isLineEnd) = (kind, count) := by
      simp only [CommentStyle.mode, hclose, step, Step.lineComment, hseek, if_true] at h
      split at h
      · next n hn =>
        cases h
        rw [(List.findIdx?_eq_some_iff_findIdx_eq.1 hn).2]
      · next hn =>
        cases h
        rw [List.findIdx_eq_length_of_false (List.findIdx?_eq_none_iff.1 hn), ← List.length_append,
          hbody]
    cases hcount
    exact .lineComment hc hclose hbody.symm
  | some close =>
    simp only [CommentStyle.mode, hclose, step, Step.blockComment, hseek, if_true] at h
    split at h
    · next n hn =>
      cases h
      exact .blockComment hc hclose hbody.symm hn
    · next hn =>
      cases h
      exact .unterminated hc hclose hbody.symm hn

theorem of_quote {q : Quote} {after : Text} (hc : config.commentAt text true = .absent)
    (ho : config.operatorAt text true = .absent) (htext : text = q.char :: after)
    (h : step config true (.string q (Text.size [q.char]) false) text = .piece kind count) :
    FirstPiece config text kind count := by
  have hseek : text.seek (Text.size [q.char]) = (1, after) := by
    rw [htext]
    exact Text.seek_behind [q.char] after
  simp only [step, Step.string, hseek, if_true] at h
  split at h
  · next n hn =>
    cases h
    exact .string hc ho htext hn
  · next escaped hn =>
    cases h
    exact .quote hc ho htext hn

end FirstPiece

/-! ## Pieces of an input -/

section

variable {config : Config} {text source : Text}

/-- The first piece that a scan cuts off is the first piece of the text. -/
theorem Scans.exists_first {c : Cut} {after : List Cut} {stop : Stop}
    (h : Scans config true .normal text (c :: after) stop) :
    ∃ rest, text = c.text ++ rest ∧ Scans config true .normal rest after stop ∧
      FirstPiece config text c.kind c.text.length := by
  obtain ⟨rest, htext, hscan⟩ := h.exists_behind_first
  refine ⟨rest, htext, hscan, ?_⟩
  have hr := Step.normal_ruled config true text
  cases h with
  | @piece _ _ kind count _ _ hstep _ =>
    have hle : count ≤ text.length := (normal_piece hstep).le
    rw [show Step.normal config true text = _ from hstep] at hr
    show FirstPiece config text kind (text.take count).length
    rw [List.length_take_of_le hle]
    generalize hs : Step.piece kind count = s at hr
    cases hr with
    | operator index operator _ hc ho =>
      cases hs
      exact .operator hc ho
    | segment cls word after hc ho hm _ => exact .segment hc ho hm hs.symm
    | _ => cases hs
  | @enter _ mode _ _ _ hstep hinside =>
    have hmode : mode ≠ .normal := (step_enter hstep).2.1
    rw [show Step.normal config true text = _ from hstep] at hr
    -- in a construct the next step cuts it off
    cases hinside with
    | enter hstep' _ => exact absurd (step_enter hstep').1 hmode
    | @piece _ _ kind count _ _ hpiece _ =>
      have hle : count ≤ text.length := (step_piece (step_enter hstep).2.2 hpiece).le
      show FirstPiece config text kind (text.take count).length
      rw [List.length_take_of_le hle]
      generalize hs : Step.enter mode = s at hr
      cases hr with
      | comment index style _ hc =>
        cases hs
        exact .of_comment hc hpiece
      | segment cls word after hc ho hm _ =>
        have hseg := Step.segment_segmented config.symbols true cls word after
        rw [← hs] at hseg
        cases hseg with
        | quote q hq =>
          subst hq
          obtain rfl : word = [q.char] := SymbolSet.munch_atom hm
          exact .of_quote hc ho (SymbolSet.munch_append _ hm) hpiece
      | _ => cases hs

/-- The piece stands in the input where it is the first piece of the rest. -/
def Piece.CutFrom (config : Config) (source : Text) (p : Piece) : Prop :=
  ∃ left after, source = left ++ (p.lexeme.text ++ after) ∧ p.StandsAt (Text.size left) ∧
    FirstPiece config (p.lexeme.text ++ after) p.kind p.lexeme.text.length

namespace Piece.CutFrom

variable {p : Piece}

/-- A piece is the first piece of the input from the offset on at which it starts. -/
theorem first {left rest : Text} (h : p.CutFrom config source) (hsource : source = left ++ rest)
    (hstart : p.span.start = Text.size left) :
    FirstPiece config rest p.kind p.lexeme.text.length := by
  obtain ⟨left', after, hcut, hstands, hfirst⟩ := h
  rw [hstands.start_eq] at hstart
  obtain ⟨-, rfl⟩ := Text.append_inj_of_size (hsource.symm.trans hcut) hstart.symm
  exact hfirst

/-- A piece is the first piece of its text with the input from the offset on at which it ends. -/
theorem first_of_stop {left after : Text} (h : p.CutFrom config source)
    (hsource : source = left ++ after) (hstop : p.span.stop = Text.size left) :
    FirstPiece config (p.lexeme.text ++ after) p.kind p.lexeme.text.length := by
  obtain ⟨left', after', hcut, hstands, hfirst⟩ := h
  rw [← List.append_assoc] at hcut
  rw [hstands.span, ← Text.size_append] at hstop
  obtain ⟨-, rfl⟩ := Text.append_inj_of_size (hsource.symm.trans hcut) hstop.symm
  exact hfirst

theorem text_closer {d : Delimiter} {s : Span} {l : Lexeme}
    (h : (⟨.closer d, s, l⟩ : Piece).CutFrom config source) : l.text = [d.closer] := by
  obtain ⟨_, _, -, hstands, -⟩ := h
  exact hstands.closer d rfl

end Piece.CutFrom

theorem Scans.cutFrom {cuts : List Cut} {stop : Stop} {ps : List Piece} {left : Text}
    (h : Scans config true .normal text cuts stop)
    (hps : ps.map Piece.detach = layout (Text.size left) cuts) (hsource : source = left ++ text) :
    ∀ p ∈ ps, p.CutFrom config source := by
  have fits : Mode.normal.Fits config text := trivial
  have hlaid := (laid_of_layout hps fun c hc => h.whole fits hc).1
  induction cuts generalizing text ps left with
  | nil =>
    obtain rfl : ps = [] := List.map_eq_nil_iff.1 hps
    exact nofun
  | cons c cuts ih =>
    cases ps with
    | nil => exact nofun
    | cons p ps =>
      obtain ⟨hp, hps⟩ := List.cons.inj hps
      obtain ⟨hstands, hlaid⟩ := hlaid
      have hkind : p.kind = c.kind := congrArg Piece.kind hp
      have htext : p.lexeme.text = c.text := by
        have hlexeme := congrArg (fun p => p.lexeme.text) hp
        simpa only [Piece.detach, Lexeme.text_copied] using hlexeme
      obtain ⟨rest, rfl, hscan, hfirst⟩ := h.exists_first
      rw [← hkind, ← htext] at hfirst
      rw [← htext, ← Text.size_append] at hps
      rw [← Text.size_append] at hlaid
      rw [← htext] at hsource
      refine List.forall_mem_cons.2 ⟨⟨left, rest, hsource, hstands, hfirst⟩, ?_⟩
      exact ih hscan hps (by rw [hsource, List.append_assoc]) trivial hlaid

end

/-- The tree of an input is made of pieces that follow each other, each the first piece of the
input from there on. -/
theorem exists_groups_lex (config : Config) (source : Text) :
    ∃ ps, Groups ps (lex config source) ∧ Laid 0 ps ∧ textOf ps = source ∧
      ∀ p ∈ ps, p.CutFrom config source := by
  have fits : Mode.normal.Fits config source := trivial
  obtain ⟨ps, cuts, hlex, hscan, hps⟩ := exists_build_lex config source
  obtain ⟨hlaid, htext⟩ := laid_of_layout hps fun c hc => hscan.whole fits hc
  have hwhole : source = cuts.flatMap Cut.text ++ [] := hscan.text_eq
  rw [List.append_nil] at hwhole
  refine ⟨ps, ?_, hlaid, htext.trans hwhole.symm, ?_⟩
  · rw [hlex]
    exact (Nest.groups_build ps).1
  · exact @Scans.cutFrom config source source cuts _ ps [] hscan hps rfl

/-! ## The pieces at the ends of tokens -/

/-- A piece as `P` says stands at the start of the token and, where it is a block, at its end. -/
def Token.Stems (P : Piece → Prop) : Token → Prop
  | leaf k s l => P ⟨.leaf k, s, l⟩
  | group (.block d) s _ _ =>
    (∃ stop l, P ⟨.opener d, ⟨s.start, stop⟩, l⟩) ∧ ∃ start l, P ⟨.closer d, ⟨start, s.stop⟩, l⟩
  | group (.error (.unclosed d)) s _ _ => ∃ stop l, P ⟨.opener d, ⟨s.start, stop⟩, l⟩
  | group (.error (.stray d)) s l _ => P ⟨.closer d, s, l⟩
  | group (.error .unterminatedComment) s l _ => P ⟨.unterminated, s, l⟩
  | group (.composite _) _ _ _ => False

open Token

theorem Groups.stems {P : Piece → Prop} {ps : List Piece} {ts : List Token} (h : Groups ps ts)
    (hps : ∀ p ∈ ps, P p) : ∀ t, Occurs t ts → t.Stems P := by
  induction h with
  | nil => exact fun _ ht => absurd ht occurs_nil
  | leaf _ ih | unterminated _ ih | stray _ ih =>
    obtain ⟨hp, hps⟩ := List.forall_mem_cons.1 hps
    intro t ht
    rcases occurs_cons.1 ht with rfl | ht | ht
    · exact hp
    · exact absurd ht occurs_nil
    · exact ih hps t ht
  | block _ _ ihin ih =>
    obtain ⟨hopener, hps⟩ := List.forall_mem_cons.1 hps
    obtain ⟨hinside, hps⟩ := List.forall_mem_append.1 hps
    obtain ⟨hcloser, hps⟩ := List.forall_mem_cons.1 hps
    intro t ht
    rcases occurs_cons.1 ht with rfl | ht | ht
    · exact ⟨⟨_, _, hopener⟩, _, _, hcloser⟩
    · rw [Frame.children_close] at ht
      exact ihin hinside t ht
    · exact ih hps t ht
  | unclosed _ _ ihin ih =>
    obtain ⟨hopener, hps⟩ := List.forall_mem_cons.1 hps
    obtain ⟨hinside, hps⟩ := List.forall_mem_append.1 hps
    intro t ht
    rcases occurs_cons.1 ht with rfl | ht | ht
    · exact ⟨_, _, hopener⟩
    · rw [Frame.children_giveUp] at ht
      exact ihin hinside t ht
    · exact ih hps t ht

/-- Each token of the tree of an input stands where pieces were cut off. -/
theorem lex_stems (config : Config) (source : Text) :
    ∀ t, Occurs t (lex config source) → t.Stems (Piece.CutFrom config source) := by
  obtain ⟨ps, hgroups, -, -, hps⟩ := exists_groups_lex config source
  exact hgroups.stems hps

theorem framed_lex {config : Config} {source : Text} {t : Token}
    (ht : Occurs t (lex config source)) : Framed t := by
  obtain ⟨ps, hgroups, hlaid, -, -⟩ := exists_groups_lex config source
  exact hgroups.framed hlaid t ht

/-- Each token of the tree of an input stands in it with its text. -/
theorem exists_place {config : Config} {source : Text} {t : Token}
    (ht : Occurs t (lex config source)) :
    ∃ left after, source = left ++ (t.text ++ after) ∧
      t.span = ⟨Text.size left, Text.size left + Text.size t.text⟩ := by
  obtain ⟨ps, hgroups, hlaid, htext, -⟩ := exists_groups_lex config source
  have hwhole : source = [] ++ (reconstruct (lex config source) ++ []) := by
    rw [hgroups.reconstruct_eq, htext, List.append_nil, List.nil_append]
  exact exists_split ht hwhole (hgroups.sits hlaid) (hgroups.framed hlaid)

/-- Walks meet the tokens in the order of the pieces that they begin with. -/
theorem Groups.exists_begun {ps : List Piece} {ts : List Token} (h : Groups ps ts) :
    ∃ qs, qs.Sublist ps ∧ List.Forall₂ Piece.Begins qs (preorderAll ts) := by
  induction h with
  | nil => exact ⟨[], .slnil, by simp⟩
  | leaf _ ih | unterminated _ ih | stray _ ih =>
    obtain ⟨qs, hsub, hbegins⟩ := ih
    refine ⟨_ :: qs, hsub.cons_cons _, ?_⟩
    rw [preorderAll_cons]
    exact .cons rfl hbegins
  | block _ _ ihin ih =>
    obtain ⟨inner, hinner, hinside⟩ := ihin
    obtain ⟨qs, hsub, hbegins⟩ := ih
    refine ⟨_ :: (inner ++ qs), (hinner.append (hsub.cons _)).cons_cons _, ?_⟩
    rw [preorderAll_cons, Frame.children_close]
    exact .cons (Or.inl rfl) (List.rel_append hinside hbegins)
  | unclosed _ _ ihin ih =>
    obtain ⟨inner, hinner, hinside⟩ := ihin
    obtain ⟨qs, hsub, hbegins⟩ := ih
    refine ⟨_ :: (inner ++ qs), (hinner.append hsub).cons_cons _, ?_⟩
    rw [preorderAll_cons, Frame.children_giveUp]
    exact .cons (Or.inr rfl) (List.rel_append hinside hbegins)

end TokenTree
