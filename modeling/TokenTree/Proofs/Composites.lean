import TokenTree.Proofs.Folding
import TokenTree.Proofs.Saturation

/-!
# Patterns only insert composites

Patterns add a level to a tree and leave the tokens as they are (`PatternSet.apply_inserts`). With
the composites taken out again, at every depth, and their children put in their places, the tokens
are those that the patterns were applied to (`Token.eraseAll`). A composite has the text of its
children and the least span that covers the first and the last of them. The tokens of an input that
ends by the greatest offset follow each other, and they still do when runs of them are gathered, so
that the text can be put together from the leaves as before. Neither need be so of tokens that were
put together by hand, or of a longer input (`PatternSet.apply_inserts_fails`).

Where a token stands in what comes out, and where it comes from, is said once
(`PatternSet.origin_of_rewrite`): it was there before, or it is a block with new children, or it
gathers a run of tokens that stood next to each other.
-/

namespace TokenTree

namespace Token

/-! ## Composites taken out -/

/-- The token gathers a run of tokens under that name. -/
def IsComposite (t : Token) (name : String) : Prop := t.groupKind? = some (.composite name)

/-- No token of the forest, at any depth, gathers others. -/
def Plain (ts : List Token) : Prop := ∀ t, Occurs t ts → ∀ name, ¬ t.IsComposite name

theorem Plain.children {t : Token} {ts : List Token} (h : Plain (t :: ts)) : Plain t.children :=
  fun u hu => h u (occurs_cons.2 (Or.inr (Or.inl hu)))

theorem Plain.tail {t : Token} {ts : List Token} (h : Plain (t :: ts)) : Plain ts :=
  fun u hu => h u (occurs_cons.2 (Or.inr (Or.inr hu)))

mutual

/-- The token without the composites inside it; of a composite only its children are left. -/
def erase : Token → List Token
  | leaf k s l => [leaf k s l]
  | group (.block d) s l ts => [group (.block d) s l (eraseAll ts)]
  | group (.error e) s l ts => [group (.error e) s l (eraseAll ts)]
  | group (.composite _) _ _ ts => eraseAll ts

/-- The tokens with each composite, at any depth, replaced by its children. -/
def eraseAll : List Token → List Token
  | [] => []
  | t :: ts => erase t ++ eraseAll ts

end

theorem eraseAll_append (ts us : List Token) :
    eraseAll (ts ++ us) = eraseAll ts ++ eraseAll us := by
  induction ts with
  | nil => rw [eraseAll]; rfl
  | cons t ts ih => rw [List.cons_append, eraseAll, eraseAll, ih, List.append_assoc]

theorem erase_gathered (name : String) (t : Token) (run : List Token) :
    erase (gathered name t run) = erase t ++ eraseAll run := by
  rw [gathered, erase, eraseAll]

theorem eraseAll_of_plain : (ts : List Token) → Plain ts → eraseAll ts = ts
  | [], _ => by rw [eraseAll]
  | leaf k s l :: ts, h => by
    rw [eraseAll, erase, eraseAll_of_plain ts h.tail]
    rfl
  | group (.block d) s l inside :: ts, h => by
    rw [eraseAll, erase, eraseAll_of_plain inside h.children, eraseAll_of_plain ts h.tail]
    rfl
  | group (.error e) s l inside :: ts, h => by
    rw [eraseAll, erase, eraseAll_of_plain inside h.children, eraseAll_of_plain ts h.tail]
    rfl
  | group (.composite name) s l inside :: ts, h =>
    absurd rfl (h (group (.composite name) s l inside) (occurs_cons.2 (Or.inl rfl)) name)

/-! ## Runs that are gathered -/

theorem text_gathered (name : String) (t : Token) (run : List Token) :
    (gathered name t run).text = reconstruct (t :: run) := by
  show (Lexeme.join none ((t :: run).map lexeme)).text = _
  rw [Lexeme.text_join, List.flatMap_map]
  rfl

theorem ends_gathered (name : String) (t : Token) (run : List Token) :
    (gathered name t run).children.head? = some t ∧
      (gathered name t run).children.getLast? = some (run.getLastD t) := by
  rw [List.getLastD_eq_getLast?]
  exact ⟨rfl, List.getLast?_cons⟩

/-- The span of a run whose tokens follow each other is from its first token to its last. -/
theorem Sits.span_gathered {pos : Nat} {t : Token} {run : List Token} (h : Sits pos (t :: run))
    (name : String) :
    (gathered name t run).span = ⟨t.span.start, (run.getLastD t).span.stop⟩ ∧
      (gathered name t run).span = ⟨pos, pos + Text.size (gathered name t run).text⟩ := by
  have hmem : run.getLastD t ∈ t :: run := by
    refine List.mem_of_getLast? ?_
    rw [List.getLastD_eq_getLast?, List.getLast?_cons]
  have hfirst := h.bounds t List.mem_cons_self
  have hlast := h.bounds _ hmem
  have hstart : t.span.start = pos := h.tiles.1
  have hstop : (run.getLastD t).span.stop = pos + Text.size (reconstruct (t :: run)) := by
    have hstop := stop_of_tiles h.tiles
    rwa [List.getLast?_cons, ← List.getLastD_eq_getLast?] at hstop
  rw [text_gathered, ← hstop, ← hstart, and_self]
  show Span.mk (min _ _) (max _ _) = _
  rw [Nat.min_eq_left (by omega), Nat.max_eq_right (by omega)]

theorem Sits.snug_gathered {pos : Nat} {t : Token} {run : List Token}
    (h : Sits pos (t :: run)) (name : String) : Snug (gathered name t run) := by
  refine ⟨[], [], ?_, ?_⟩
  · rw [text_gathered, List.append_nil]
    rfl
  · rw [(h.span_gathered name).2]
    exact h

/-- The tokens follow each other, and so do those inside each of them, at every depth, where they
stand in its text. -/
structure Orderly (ts : List Token) : Prop where
  sits : ∃ pos, Sits pos ts
  snug : ∀ t, Occurs t ts → Snug t

end Token

open Token

/-! ## What is left as it is -/

namespace Fold.Applied

variable {pos : Nat} {folds : List Fold} {ts us : List Token}

theorem eraseAll_eq (h : Applied pos folds ts us) : eraseAll us = eraseAll ts := by
  induction h with
  | done => rfl
  | fold _ _ _ ih =>
    rw [eraseAll_append, eraseAll_append, eraseAll, eraseAll, eraseAll_append, erase_gathered, ih,
      List.append_assoc]

theorem reconstruct_eq (h : Applied pos folds ts us) : reconstruct us = reconstruct ts := by
  induction h with
  | done => rfl
  | fold _ _ _ ih =>
    rw [reconstruct_append, reconstruct_append, reconstruct_cons, reconstruct_cons,
      reconstruct_append, text_gathered, reconstruct_cons, ih, List.append_assoc]

/-- Tokens that follow each other still do when runs of them are gathered. -/
theorem sits (h : Applied pos folds ts us) {start : Nat} (hsits : Sits start ts) :
    Sits start us := by
  induction h generalizing start with
  | done => exact hsits
  | @fold pos f before t run rest folds us _ _ _ ih =>
    obtain ⟨hbefore, hbehind⟩ := sits_append.1 hsits
    obtain ⟨hrun, hrest⟩ := (@sits_append _ (t :: run) rest).1 hbehind
    refine sits_append.2 ⟨hbefore, (hrun.span_gathered f.name).2, ?_⟩
    rw [text_gathered]
    exact ih hrest

/-- A token that stands in the tokens afterwards gathers some of those before, or stood there. -/
theorem occurs (h : Applied pos folds ts us) {v : Token} (hv : Occurs v us) :
    (∃ name t run, v = gathered name t run ∧ t :: run <:+: ts) ∨ Occurs v ts := by
  induction h with
  | done => exact Or.inr hv
  | @fold pos f before t run rest folds us _ _ _ ih =>
    have hbehind {w : Token} (hw : Occurs w (t :: run) ∨ Occurs w rest) :
        Occurs w (before ++ t :: (run ++ rest)) :=
      occurs_append.2 (Or.inr ((@occurs_append w (t :: run) rest).2 hw))
    rcases occurs_append.1 hv with hv | hv
    · exact Or.inr (occurs_append.2 (Or.inl hv))
    rcases occurs_cons.1 hv with rfl | hv | hv
    · exact Or.inl ⟨f.name, t, run, rfl, before, rest, by simp⟩
    · exact Or.inr (hbehind (Or.inl hv))
    · rcases ih hv with ⟨name, u, others, rfl, hinfix⟩ | hv
      · have hrest : rest <:+: before ++ t :: (run ++ rest) := ⟨before ++ t :: run, [], by simp⟩
        exact Or.inl ⟨name, u, others, rfl, hinfix.trans hrest⟩
      · exact Or.inr (hbehind (Or.inr hv))

end Fold.Applied

namespace PatternSet

variable {s : PatternSet} {t : Token} {ts : List Token}

theorem keeps_rewriteInside (s : PatternSet) (t : Token) :
    (s.rewriteInside t).lexeme = t.lexeme ∧ (s.rewriteInside t).span = t.span := by
  match t with
  | .leaf kind span lexeme => rw [rewriteInside]; exact ⟨rfl, rfl⟩
  | .group (.block d) span lexeme children => rw [rewriteInside]; exact ⟨rfl, rfl⟩
  | .group (.error e) span lexeme children => rw [rewriteInside]; exact ⟨rfl, rfl⟩
  | .group (.composite name) span lexeme children => rw [rewriteInside]; exact ⟨rfl, rfl⟩

theorem text_rewriteInside (s : PatternSet) (t : Token) : (s.rewriteInside t).text = t.text := by
  rw [Token.text, (s.keeps_rewriteInside t).1]
  rfl

theorem reconstruct_rewriteEach (s : PatternSet) (ts : List Token) :
    reconstruct (s.rewriteEach ts) = reconstruct ts := by
  induction ts with
  | nil => rw [rewriteEach]
  | cons t ts ih => rw [rewriteEach, reconstruct_cons, reconstruct_cons, text_rewriteInside, ih]

theorem sits_rewriteEach {pos : Nat} (h : Sits pos ts) : Sits pos (s.rewriteEach ts) := by
  induction ts generalizing pos with
  | nil =>
    rw [rewriteEach]
    exact h
  | cons t ts ih =>
    rw [rewriteEach, Sits, text_rewriteInside, (s.keeps_rewriteInside t).2]
    exact ⟨h.1, ih h.2⟩

theorem reconstruct_rewrite (s : PatternSet) (ts : List Token) :
    reconstruct (s.rewrite ts) = reconstruct ts := by
  rw [rewrite, (s.applied_collect _).reconstruct_eq, reconstruct_rewriteEach]

theorem sits_rewrite {pos : Nat} (h : Sits pos ts) : Sits pos (s.rewrite ts) :=
  (s.applied_collect _).sits (sits_rewriteEach h)

theorem eraseAll_rewriteEach (s : PatternSet) :
    (ts : List Token) → eraseAll (s.rewriteEach ts) = eraseAll ts
  | [] => by rw [rewriteEach]
  | .leaf k span l :: ts => by
    rw [rewriteEach, rewriteInside, eraseAll, eraseAll, eraseAll_rewriteEach s ts]
  | .group (.block d) span l inside :: ts => by
    rw [rewriteEach, rewriteInside, eraseAll, eraseAll, erase, erase,
      (s.applied_collect _).eraseAll_eq, eraseAll_rewriteEach s inside, eraseAll_rewriteEach s ts]
  | .group (.error e) span l inside :: ts => by
    rw [rewriteEach, rewriteInside, eraseAll, eraseAll, eraseAll_rewriteEach s ts]
  | .group (.composite name) span l inside :: ts => by
    rw [rewriteEach, rewriteInside, eraseAll, eraseAll, eraseAll_rewriteEach s ts]

/-- Without composites the tokens are the same before and after. -/
theorem eraseAll_rewrite (s : PatternSet) (ts : List Token) :
    eraseAll (s.rewrite ts) = eraseAll ts := by
  rw [rewrite, (s.applied_collect _).eraseAll_eq, eraseAll_rewriteEach]

/-! ## Where tokens come from -/

/-- The list is one of those in which runs are gathered: that of all tokens, or what is inside one
of their blocks. -/
inductive Level (ts : List Token) : List Token → Prop
  | top : Level ts ts
  | inside {d : Delimiter} {span : Span} {lexeme : Lexeme} {children : List Token}
    (hb : Occurs (.group (.block d) span lexeme children) ts) : Level ts children

/-- What a token that stands in the rewritten tokens is. -/
inductive Origin (s : PatternSet) (ts : List Token) : Token → Prop
  | kept {t : Token} (ht : Occurs t ts) : Origin s ts t
  | block {d : Delimiter} {span : Span} {lexeme : Lexeme} {children : List Token}
    (hb : Occurs (.group (.block d) span lexeme children) ts) :
    Origin s ts (.group (.block d) span lexeme (s.rewrite children))
  | gathered {level : List Token} (hlevel : Level ts level) (name : String) {t : Token}
    {run : List Token} (hrun : t :: run <:+: s.rewriteEach level) :
    Origin s ts (gathered name t run)

/-- Tokens with their insides rewritten come from the tokens `root` that they are among. -/
theorem origin_of_rewriteEach {root : List Token} : (ts : List Token) →
    (∀ v, Occurs v ts → Occurs v root) → Occurs t (s.rewriteEach ts) → Origin s root t
  | [], _, ht => by
    rw [rewriteEach] at ht
    exact absurd ht occurs_nil
  | .leaf k span l :: ts, hsub, ht => by
    rw [rewriteEach, rewriteInside] at ht
    rcases occurs_cons.1 ht with rfl | ht | ht
    · exact .kept (hsub _ (occurs_cons.2 (Or.inl rfl)))
    · exact absurd ht occurs_nil
    · exact origin_of_rewriteEach ts (fun v hv => hsub v (occurs_cons.2 (Or.inr (Or.inr hv)))) ht
  | .group (.block d) span l inside :: ts, hsub, ht => by
    have hb := hsub _ (occurs_cons.2 (Or.inl rfl))
    rw [rewriteEach, rewriteInside] at ht
    rcases occurs_cons.1 ht with rfl | ht | ht
    · exact .block hb
    · rcases (s.applied_collect _).occurs ht with ⟨name, u, run, rfl, hrun⟩ | ht
      · exact .gathered (.inside hb) name hrun
      · exact origin_of_rewriteEach inside
          (fun v hv => hsub v (occurs_cons.2 (Or.inr (Or.inl hv)))) ht
    · exact origin_of_rewriteEach ts (fun v hv => hsub v (occurs_cons.2 (Or.inr (Or.inr hv)))) ht
  | .group (.error e) span l inside :: ts, hsub, ht => by
    rw [rewriteEach, rewriteInside] at ht
    rcases occurs_cons.1 ht with rfl | ht | ht
    · exact .kept (hsub _ (occurs_cons.2 (Or.inl rfl)))
    · exact .kept (hsub _ (occurs_cons.2 (Or.inr (Or.inl ht))))
    · exact origin_of_rewriteEach ts (fun v hv => hsub v (occurs_cons.2 (Or.inr (Or.inr hv)))) ht
  | .group (.composite name) span l inside :: ts, hsub, ht => by
    rw [rewriteEach, rewriteInside] at ht
    rcases occurs_cons.1 ht with rfl | ht | ht
    · exact .kept (hsub _ (occurs_cons.2 (Or.inl rfl)))
    · exact .kept (hsub _ (occurs_cons.2 (Or.inr (Or.inl ht))))
    · exact origin_of_rewriteEach ts (fun v hv => hsub v (occurs_cons.2 (Or.inr (Or.inr hv)))) ht

theorem origin_of_rewrite (ht : Occurs t (s.rewrite ts)) : Origin s ts t := by
  rcases (s.applied_collect _).occurs ht with ⟨name, u, run, rfl, hrun⟩ | ht
  · exact .gathered .top name hrun
  · exact origin_of_rewriteEach ts (fun _ hv => hv) ht

/-- A composite gathers a run, if there was none before. -/
theorem Origin.exists_run (h : Origin s ts t) (hplain : Plain ts) {name : String}
    (hname : t.IsComposite name) :
    ∃ level u run, Level ts level ∧ t = Token.gathered name u run ∧
      u :: run <:+: s.rewriteEach level := by
  cases h with
  | kept ht => exact absurd hname (hplain t ht name)
  | block _ => cases hname
  | @gathered level hlevel name' u run hrun =>
    cases hname
    exact ⟨level, u, run, hlevel, rfl, hrun⟩

/-! ## Tokens that follow each other -/

/-- In every list in which runs are gathered the tokens follow each other. -/
theorem Level.exists_sits {level : List Token} (h : Level ts level) (horderly : Orderly ts) :
    ∃ pos, Sits pos level := by
  cases h with
  | top => exact horderly.sits
  | inside hb =>
    obtain ⟨before, after, -, hsits⟩ := horderly.snug _ hb
    exact ⟨_, hsits⟩

theorem exists_sits_of_infix {pos : Nat} {us vs : List Token} (h : Sits pos vs) (hus : us <:+: vs) :
    ∃ pos, Sits pos us := by
  obtain ⟨before, after, rfl⟩ := hus
  rw [List.append_assoc] at h
  exact ⟨_, (sits_append.1 (sits_append.1 h).2).1⟩

/-- A run that is gathered is of tokens that follow each other. -/
theorem Level.exists_sits_infix {level run : List Token} (h : Level ts level)
    (horderly : Orderly ts) (hrun : run <:+: s.rewriteEach level) : ∃ pos, Sits pos run := by
  obtain ⟨start, hlevel⟩ := h.exists_sits horderly
  exact exists_sits_of_infix (sits_rewriteEach hlevel) hrun

/-- The children of each token still sit in its text. -/
theorem Origin.snug (h : Origin s ts t) (horderly : Orderly ts) : Snug t := by
  cases h with
  | kept ht => exact horderly.snug _ ht
  | @block d span lexeme children hb =>
    obtain ⟨before, after, htext, hsits⟩ := horderly.snug _ hb
    refine ⟨before, after, ?_, sits_rewrite hsits⟩
    show lexeme.text = before ++ (reconstruct (s.rewrite children) ++ after)
    rw [reconstruct_rewrite]
    exact htext
  | @gathered level hlevel name u run hrun =>
    obtain ⟨start, hrun⟩ := hlevel.exists_sits_infix horderly hrun
    exact hrun.snug_gathered name

theorem orderly_rewrite (s : PatternSet) (h : Orderly ts) : Orderly (s.rewrite ts) := by
  obtain ⟨pos, hsits⟩ := h.sits
  exact ⟨⟨pos, sits_rewrite hsits⟩, fun t ht => (origin_of_rewrite ht).snug h⟩

theorem orderly_of_framed {pos : Nat} (hsits : Sits pos ts)
    (hframed : ∀ t, Occurs t ts → Framed t) : Orderly ts :=
  ⟨⟨pos, hsits⟩, fun t ht => (hframed t ht).snug⟩

theorem Level.exists_sits_run {level run : List Token} {pos : Nat} (h : Level ts level)
    (hsits : Sits pos ts) (hframed : ∀ t, Occurs t ts → Framed t)
    (hrun : run <:+: s.rewriteEach level) : ∃ pos, Sits pos run :=
  h.exists_sits_infix (orderly_of_framed hsits hframed) hrun

theorem Origin.encloses {pos : Nat} (h : Origin s ts t) (hsits : Sits pos ts)
    (hframed : ∀ t, Occurs t ts → Framed t) : Encloses t :=
  (h.snug (orderly_of_framed hsits hframed)).encloses

end PatternSet

/-- The pieces of an input follow each other, and its tree is made of them. -/
theorem exists_pieces_lex (config : Config) (source : Text) :
    ∃ ps, Groups ps (lex config source) ∧ Laid 0 ps ∧ textOf ps = source := by
  obtain ⟨ps, cuts, hlex, hscan, hpieces⟩ := exists_build_lex config source
  have fits : Mode.normal.Fits config source := trivial
  obtain ⟨hlaid, htext⟩ := laid_of_layout hpieces fun c hc => hscan.whole fits hc
  have hwhole : source = cuts.flatMap Cut.text ++ [] := hscan.text_eq
  rw [List.append_nil] at hwhole
  rw [hlex]
  exact ⟨ps, (Nest.groups_build ps).1, hlaid, htext.trans hwhole.symm⟩

theorem Groups.plain {ps : List Piece} {ts : List Token} (h : Groups ps ts) : Plain ts := by
  rintro t ht name hname
  obtain ⟨⟨kind, span, lexeme⟩, -, hbegins⟩ := h.exists_begins ht
  cases kind with
  | leaf k =>
    cases hbegins
    cases hname
  | unterminated =>
    cases hbegins
    cases hname
  | opener d =>
    rcases hbegins with hd | hd
    · cases hd.symm.trans hname
    · cases hd.symm.trans hname
  | closer d => cases Eq.trans (Eq.symm hbegins) hname

/-- No token of an input gathers others, however long the input is. -/
theorem plain_of_checked_lex {config : Config} {source : Text} {tokens : List Token}
    (h : Checked.lex config source = .ok tokens) : Plain tokens := by
  rw [Checked.lex, Checked.lexBuffer] at h
  cases hscan : Checked.scanBuffer config true 0 .normal ⟨some 0, source⟩ with
  | error e =>
    rw [hscan] at h
    cases h
  | ok reached =>
    rw [hscan] at h
    cases h
    exact (Nest.groups_build reached.pieces).1.plain

/-- Patterns only insert composites. With these taken out again the tokens are the same, and each of
them has children, whose text it has, and the least span that covers the first and the last of them.
In the tree of an input up to the greatest offset that is from the start of the first to the end of
the last, and the text of the input can be put together from the tokens and from their leaves. -/
theorem PatternSet.apply_inserts (s : PatternSet) :
    (∀ tokens, Plain tokens → eraseAll (s.apply tokens) = tokens ∧
      ∀ t name, Occurs t (s.apply tokens) → t.IsComposite name →
        t.text = reconstruct t.children ∧
        ∃ first last, t.children.head? = some first ∧ t.children.getLast? = some last ∧
          t.span = ⟨min first.span.start last.span.start, max first.span.stop last.span.stop⟩) ∧
    (∀ config source tokens, Checked.lex config source = .ok tokens → Plain tokens) ∧
    ∀ config source, Text.size source ≤ maxOffset →
      Checked.lex config source = .ok (lex config source) ∧
      reconstruct (lexWith config s source) = source ∧
      expand? (lexWith config s source) = some source ∧
      ∀ t name, Occurs t (lexWith config s source) → t.IsComposite name →
        ∃ first last, t.children.head? = some first ∧ t.children.getLast? = some last ∧
          t.span = ⟨first.span.start, last.span.stop⟩ := by
  refine ⟨fun tokens hplain => ⟨?_, ?_⟩, fun _ _ _ => plain_of_checked_lex,
    fun config source hfit => ?_⟩
  · rw [s.apply_eq, s.eraseAll_rewrite, eraseAll_of_plain tokens hplain]
  · intro t name ht hname
    rw [s.apply_eq] at ht
    obtain ⟨-, u, run, -, rfl, -⟩ := (origin_of_rewrite ht).exists_run hplain hname
    obtain ⟨hfirst, hlast⟩ := ends_gathered name u run
    exact ⟨text_gathered name u run, u, run.getLastD u, hfirst, hlast, rfl⟩
  · obtain ⟨ps, hgroups, hlaid, hsource⟩ := exists_pieces_lex config source
    have hplain := hgroups.plain
    have hsits := hgroups.sits hlaid
    have hframed := hgroups.framed hlaid
    have htext : reconstruct (lexWith config s source) = source := by
      rw [lexWith, s.apply_eq, s.reconstruct_rewrite, hgroups.reconstruct_eq, hsource]
    rw [lexWith, s.apply_eq] at htext ⊢
    refine ⟨Checked.lex_eq config hfit, htext, ?_, ?_⟩
    · rw [expand?_eq fun t ht => (origin_of_rewrite ht).encloses hsits hframed, htext]
    · intro t name ht hname
      obtain ⟨level, u, run, hlevel, rfl, hrun⟩ :=
        (origin_of_rewrite ht).exists_run hplain hname
      obtain ⟨start, hrun⟩ := hlevel.exists_sits_run hsits hframed hrun
      obtain ⟨hfirst, hlast⟩ := ends_gathered name u run
      exact ⟨u, run.getLastD u, hfirst, hlast, (hrun.span_gathered name).1⟩

/-- A name and a symbol in a block, which are gathered. -/
theorem PatternSet.apply_inserts_pair :
    let source := ['(', 'a', '+', ')']
    let pair : Pattern := ⟨"pair", 0, [[.tag .ident, .any]], false⟩
    ∃ s : PatternSet, s.patterns = [pair] ∧ Text.size source ≤ maxOffset ∧
      ((lexWith .default s source).flatMap children).map span = [⟨1, 3⟩] ∧
      expand? (lexWith .default s source) = some source := by
  intro source pair
  let s : PatternSet := ⟨[pair], [pair], rfl, (List.mergeSort_singleton pair).symm⟩
  have hfit : Text.size source ≤ maxOffset := by decide
  obtain ⟨-, -, hexpand, -⟩ := (apply_inserts s).2.2 .default source hfit
  exact ⟨s, rfl, hfit, by decide +kernel, hexpand⟩

/-- A region that an opening bracket left is not entered, and stays as it is where no pattern
matches. -/
theorem PatternSet.apply_unclosed {s : PatternSet} {d : Delimiter} {span : Span} {lexeme : Lexeme}
    {children : List Token} (hs : s.patterns = []) :
    s.apply [.group (.error (.unclosed d)) span lexeme children] =
      [.group (.error (.unclosed d)) span lexeme children] := by
  have hnone (tokens : List Token) : s.firstAt tokens = none := by
    rw [firstAt, hs]
    rfl
  rw [s.apply_eq, rewrite, rewriteEach, rewriteEach, rewriteInside, gather, hnone]
  show _ :: s.gather [] = _
  rw [gather]

/-- Tokens that were put together by hand need not follow each other: a composite of these two
starts where the second does, not where its first child starts. And of an input beyond the greatest
offset more text may be put together from the leaves than it has, even without any pattern. -/
theorem PatternSet.apply_inserts_fails :
    (let first := Token.leaf .ident ⟨4, 5⟩ (.copied ['a'])
      let last := Token.leaf .ident ⟨2, 8⟩ (.copied ['b'])
      let pair : Pattern := ⟨"pair", 0, [[.any, .any]], false⟩
      ∃ s : PatternSet, s.patterns = [pair] ∧ Plain [first, last] ∧
        ∃ t, Occurs t (s.apply [first, last]) ∧ t.IsComposite "pair" ∧
          t.children = [first, last] ∧ t.span = ⟨2, 8⟩ ∧
          t.span ≠ ⟨first.span.start, last.span.stop⟩) ∧
    (let source := '(' :: List.replicate maxOffset 'a'
      ∃ (s : PatternSet) (tokens : List Token), s.patterns = [] ∧
        Checked.lex .default source = .ok tokens ∧
        expand? (s.apply tokens) = some (source ++ ['a']) ∧
        expand? (s.apply tokens) ≠ some source) := by
  constructor
  · intro first last pair
    let s : PatternSet := ⟨[pair], [pair], rfl, (List.mergeSort_singleton pair).symm⟩
    have hfirst : s.firstAt [first, last] = some (pair, 2) := rfl
    have happly : s.apply [first, last] = [gathered "pair" first [last]] := by
      rw [s.apply_eq, rewrite, rewriteEach, rewriteEach, rewriteEach, rewriteInside, rewriteInside,
        gather, hfirst]
      show _ :: s.gather [] = _
      rw [gather]
      rfl
    refine ⟨s, rfl, ?_, gathered "pair" first [last], ?_, rfl, rfl, rfl, by decide⟩
    · intro t ht name hname
      rcases occurs_cons.1 ht with rfl | ht | ht
      · cases hname
      · exact occurs_nil ht
      rcases occurs_cons.1 ht with rfl | ht | ht
      · cases hname
      · exact occurs_nil ht
      · exact occurs_nil ht
    · rw [happly]
      exact .here List.mem_cons_self
  · intro source
    let s : PatternSet := ⟨[], [], rfl, List.mergeSort_nil.symm⟩
    obtain ⟨whole, letters, hwhole, hletters, hlex⟩ := Checked.lex_opener_letters
    refine ⟨s, _, rfl, hlex, ?_⟩
    rw [s.apply_unclosed rfl, Checked.expand?_opener_letters hwhole hletters]
    refine ⟨rfl, fun h => ?_⟩
    have hsame : source ++ ['a'] = source := Option.some.inj h
    exact List.cons_ne_nil 'a' [] (List.append_right_eq_self.1 hsame)

end TokenTree
