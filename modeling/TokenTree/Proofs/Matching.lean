import TokenTree.Proofs.Nesting
import TokenTree.Proofs.Recovery

/-!
# Bracket matching

Of all forests that pieces can be grouped into (`Groups`), which differ in what closing bracket
belongs to what opening bracket, exactly one is subject to the laws of recovery, and the nest builds
it. That what it builds is such a forest is an invariant of the nest (`Nest.Grown`). That there is
no other follows from a run of the nest over the pieces of any such forest, which builds that forest
(`Nest.givesUp_of_groups`).
-/

namespace TokenTree

open Token

/-- The tokens are made of the pieces, in their order: each leaf and each stray bracket of one
piece, each block of what is inside it between an opening and a closing bracket, and each region
without a closing bracket of an opening bracket and what is behind it. -/
inductive Groups : List Piece → List Token → Prop
  | nil : Groups [] []
  | leaf {k : LeafKind} {s : Span} {l : Lexeme} {ps : List Piece} {ts : List Token}
    (h : Groups ps ts) : Groups (⟨.leaf k, s, l⟩ :: ps) (.leaf k s l :: ts)
  | unterminated {s : Span} {l : Lexeme} {ps : List Piece} {ts : List Token} (h : Groups ps ts) :
    Groups (⟨.unterminated, s, l⟩ :: ps) (.group (.error .unterminatedComment) s l [] :: ts)
  | stray {d : Delimiter} {s : Span} {l : Lexeme} {ps : List Piece} {ts : List Token}
    (h : Groups ps ts) :
    Groups (⟨.closer d, s, l⟩ :: ps) (.group (.error (.stray d)) s l [] :: ts)
  | block {d : Delimiter} {s s' : Span} {l l' : Lexeme} {inside ps : List Piece}
    {children ts : List Token} (hin : Groups inside children) (h : Groups ps ts) :
    Groups (⟨.opener d, s, l⟩ :: (inside ++ ⟨.closer d, s', l'⟩ :: ps))
      (Frame.close ⟨d, s.start, l, children.reverse⟩ l' s'.stop :: ts)
  | unclosed {d : Delimiter} {s : Span} {l : Lexeme} {inside ps : List Piece}
    {children ts : List Token} (hin : Groups inside children) (h : Groups ps ts) :
    Groups (⟨.opener d, s, l⟩ :: (inside ++ ps))
      (Frame.giveUp ⟨d, s.start, l, children.reverse⟩ :: ts)

theorem Groups.append {ps qs : List Piece} {ts us : List Token} (h : Groups ps ts)
    (h' : Groups qs us) : Groups (ps ++ qs) (ts ++ us) := by
  induction h with
  | nil => exact h'
  | leaf _ ih => exact .leaf ih
  | unterminated _ ih => exact .unterminated ih
  | stray _ ih => exact .stray ih
  | block hin _ _ ih =>
    rw [List.cons_append, List.append_assoc, List.cons_append]
    exact .block hin ih
  | unclosed hin _ _ ih =>
    rw [List.cons_append, List.append_assoc]
    exact .unclosed hin ih

theorem Frame.children_close (d : Delimiter) (start stop : Nat) (opener closer : Lexeme)
    (children : List Token) :
    (Frame.close ⟨d, start, opener, children.reverse⟩ closer stop).children = children :=
  List.reverse_reverse children

theorem Frame.children_giveUp (d : Delimiter) (start : Nat) (opener : Lexeme)
    (children : List Token) :
    (Frame.giveUp ⟨d, start, opener, children.reverse⟩).children = children :=
  List.reverse_reverse children

/-- The piece is all of the token, or its opening bracket. -/
def Piece.Begins (p : Piece) (t : Token) : Prop :=
  match p.kind with
  | .leaf k => t = .leaf k p.span p.lexeme
  | .unterminated => t = .group (.error .unterminatedComment) p.span p.lexeme []
  | .opener d => t.IsBlock d ∨ t.IsUnclosed d
  | .closer d => t.IsStray d

theorem Piece.Begins.unterminated {p : Piece} {t : Token} (h : p.Begins t)
    (ht : t.groupKind? = some (.error .unterminatedComment)) : p.kind = .unterminated := by
  obtain ⟨kind, s, l⟩ := p
  cases kind with
  | leaf k =>
    cases h
    cases ht
  | unterminated => rfl
  | opener d => rcases h with hd | hd <;> cases hd.symm.trans ht
  | closer d => cases h.symm.trans ht

/-- Each token of a forest, at any depth, begins with one of the pieces. -/
theorem Groups.exists_begins {ps : List Piece} {ts : List Token} (h : Groups ps ts) {t : Token}
    (ht : Occurs t ts) : ∃ p ∈ ps, p.Begins t := by
  induction h with
  | nil => exact absurd ht occurs_nil
  | leaf _ ih | unterminated _ ih | stray _ ih =>
    rcases occurs_cons.1 ht with rfl | ht | ht
    · exact ⟨_, List.mem_cons_self, rfl⟩
    · exact absurd ht occurs_nil
    · obtain ⟨p, hp, hbegins⟩ := ih ht
      exact ⟨p, List.mem_cons_of_mem _ hp, hbegins⟩
  | block _ _ ihin ih =>
    rcases occurs_cons.1 ht with rfl | ht | ht
    · exact ⟨_, List.mem_cons_self, Or.inl rfl⟩
    · rw [Frame.children_close] at ht
      obtain ⟨p, hp, hbegins⟩ := ihin ht
      exact ⟨p, List.mem_cons_of_mem _ (List.mem_append_left _ hp), hbegins⟩
    · obtain ⟨p, hp, hbegins⟩ := ih ht
      refine ⟨p, List.mem_cons_of_mem _ (List.mem_append_right _ ?_), hbegins⟩
      exact List.mem_cons_of_mem _ hp
  | unclosed _ _ ihin ih =>
    rcases occurs_cons.1 ht with rfl | ht | ht
    · exact ⟨_, List.mem_cons_self, Or.inr rfl⟩
    · rw [Frame.children_giveUp] at ht
      obtain ⟨p, hp, hbegins⟩ := ihin ht
      exact ⟨p, List.mem_cons_of_mem _ (List.mem_append_left _ hp), hbegins⟩
    · obtain ⟨p, hp, hbegins⟩ := ih ht
      exact ⟨p, List.mem_cons_of_mem _ (List.mem_append_right _ hp), hbegins⟩

theorem Groups.eq_nil {ps : List Piece} (h : Groups ps []) : ps = [] := by
  cases h
  rfl

/-! ## The laws on what a frame becomes -/

namespace Token

variable {above : List Delimiter}

theorem lawful_close {f : Frame} {closer : Lexeme} {stop : Nat} :
    Lawful above (f.close closer stop) ↔ f.delimiter ∉ trailAll f.children.reverse ∧
      LawfulAll (f.delimiter :: above) f.children.reverse := by
  rw [Frame.close, Lawful]
  rfl

theorem lawful_giveUp {f : Frame} :
    Lawful above f.giveUp ↔ LawfulAll (f.delimiter :: above) f.children.reverse := by
  rw [Frame.giveUp, Lawful]
  exact and_iff_right trivial

theorem trail_close (f : Frame) (closer : Lexeme) (stop : Nat) :
    trail (f.close closer stop) = [] := by
  rw [Frame.close, trail]
  simp

theorem trail_giveUp (f : Frame) :
    trail f.giveUp = f.delimiter :: trailAll f.children.reverse := by
  rw [Frame.giveUp, trail]

theorem trailAll_cons {t : Token} (h : trail t = []) (ts : List Token) :
    trailAll (t :: ts) = trailAll ts := by
  cases ts with
  | nil => exact h
  | cons u ts => rfl

theorem trailAll_concat (ts : List Token) (t : Token) : trailAll (ts ++ [t]) = trail t := by
  rw [trailAll_eq, List.getLast?_concat, Option.elim_some]

/-- Behind tokens that all have their closing brackets one more token may stand. -/
theorem lawfulAll_concat {ts : List Token} {t : Token} (hts : LawfulAll above ts)
    (htrail : trailAll ts = []) (ht : Lawful above t) : LawfulAll above (ts ++ [t]) := by
  induction ts with
  | nil => exact ⟨ht, fun _ => rfl, trivial⟩
  | cons u ts ih =>
    obtain ⟨hu, hlast, hrest⟩ := hts
    have hclosed : trail u = [] := by
      by_cases hu : trail u = []
      · exact hu
      · rw [hlast hu] at htrail
        exact htrail
    rw [trailAll_cons hclosed] at htrail
    refine ⟨hu, ?_, ih hrest htrail⟩
    intro hopen
    exact absurd hclosed hopen

end Token

namespace Nest

/-! ## What the nest builds -/

/-- The nest was built of the pieces: the tokens outside and in each open block are lawful groups of
those before, between and behind the brackets of the open blocks. Only the innermost open block may
end with regions without closing brackets, of the given kinds. -/
inductive Grown : List Delimiter → List Piece → Nest → Prop
  | outside {trail : List Delimiter} {ps : List Piece} {ts : List Token}
    (h : Groups ps ts.reverse) (hlawful : LawfulAll [] ts.reverse)
    (htrail : trailAll ts.reverse = trail) : Grown trail ps ⟨[], ts⟩
  | inside {trail : List Delimiter} {ps qs : List Piece} {fs : List Frame} {ts cs : List Token}
    {d : Delimiter} {s : Span} {l : Lexeme} (hout : Grown [] ps ⟨fs, ts⟩)
    (h : Groups qs cs.reverse) (hlawful : LawfulAll (d :: fs.map Frame.delimiter) cs.reverse)
    (htrail : trailAll cs.reverse = trail) :
    Grown trail (ps ++ ⟨.opener d, s, l⟩ :: qs) ⟨⟨d, s.start, l, cs⟩ :: fs, ts⟩

variable {n n' : Nest} {ps qs : List Piece} {tr ds : List Delimiter}

theorem Grown.add {t : Token} (hn : Grown [] ps n) (ht : Groups qs [t])
    (hlawful : Lawful n.delimiters t) : Grown (trail t) (ps ++ qs) (n.add t) := by
  cases hn with
  | @outside _ _ ts h hts htrail =>
    have hreverse : (t :: ts).reverse = ts.reverse ++ [t] := List.reverse_cons
    refine .outside ?_ ?_ ?_
    · rw [hreverse]
      exact h.append ht
    · rw [hreverse]
      exact lawfulAll_concat hts htrail hlawful
    · rw [hreverse]
      exact trailAll_concat _ t
  | @inside _ ps qs' fs ts cs d s l hout h hcs htrail =>
    have hreverse : (t :: cs).reverse = cs.reverse ++ [t] := List.reverse_cons
    rw [List.append_assoc, List.cons_append]
    refine .inside hout ?_ ?_ ?_
    · rw [hreverse]
      exact h.append ht
    · rw [hreverse]
      exact lawfulAll_concat hcs htrail hlawful
    · rw [hreverse]
      exact trailAll_concat _ t

theorem Grown.giveUp {f : Frame} {fs : List Frame} {ts : List Token}
    (h : Grown tr ps ⟨f :: fs, ts⟩) :
    Grown (f.delimiter :: tr) ps (Nest.add ⟨fs, ts⟩ f.giveUp) := by
  cases h with
  | @inside _ ps qs _ _ cs d s l hout hin hcs htrail =>
    have hgroup : Groups (⟨.opener d, s, l⟩ :: (qs ++ [])) _ := .unclosed hin .nil
    rw [List.reverse_reverse, List.append_nil] at hgroup
    have hgrown := hout.add hgroup (lawful_giveUp.2 hcs)
    rw [trail_giveUp, htrail] at hgrown
    exact hgrown

theorem Grown.givesUp (h : Grown tr ps n) (hg : GivesUp ds n n') :
    Grown (ds.reverse ++ tr) ps n' := by
  induction hg generalizing tr with
  | refl n => exact h
  | step _ ih =>
    rw [List.reverse_cons, List.append_assoc]
    exact ih h.giveUp

theorem Grown.close {d : Delimiter} (hn : Grown [] ps n) (s : Span) (l : Lexeme) :
    Grown [] (ps ++ [⟨.closer d, s, l⟩]) (n.close d s l) := by
  by_cases hd : d ∈ n.delimiters
  · obtain ⟨ds, f, fs, tokens, hg, rfl, hds⟩ := exists_givesUp hd
    rw [close_of_givesUp hg hds]
    have hgrown := hn.givesUp hg
    cases hgrown with
    | @inside _ ps qs _ _ cs d s' l' hout hin hcs htrail =>
      have hgroup : Groups (⟨.opener d, s', l'⟩ :: (qs ++ [⟨.closer d, s, l⟩])) _ := .block hin .nil
      rw [List.reverse_reverse] at hgroup
      have hnot : d ∉ trailAll cs.reverse := by
        rw [htrail, List.append_nil]
        intro hmem
        exact hds (List.mem_reverse.1 hmem)
      have hblock := hout.add hgroup (lawful_close.2 ⟨hnot, hcs⟩)
      rw [trail_close] at hblock
      rw [List.append_assoc]
      exact hblock
  · rw [close_of_absent hd]
    exact hn.add (.stray .nil) ⟨hd, trivial⟩

/-- What every piece keeps. -/
theorem Grown.push (h : Grown [] ps n) (p : Piece) : Grown [] (ps ++ [p]) (n.push p) := by
  obtain ⟨kind, s, l⟩ := p
  cases kind with
  | leaf k => exact h.add (.leaf .nil) trivial
  | unterminated => exact h.add (.unterminated .nil) ⟨trivial, trivial⟩
  | opener d => exact .inside h .nil trivial rfl
  | closer d => exact h.close s l

theorem Grown.foldl_push (h : Grown [] ps n) (qs : List Piece) :
    Grown [] (ps ++ qs) (qs.foldl Nest.push n) := by
  induction qs generalizing ps n with
  | nil =>
    rw [List.append_nil]
    exact h
  | cons q qs ih =>
    have hq := ih (h.push q)
    rw [List.append_assoc] at hq
    exact hq

/-- The forest that the nest makes of pieces. -/
def build (ps : List Piece) : List Token := (ps.foldl push ⟨[], []⟩).finish.tokens.reverse

/-- The nest groups the pieces lawfully. -/
theorem groups_build (ps : List Piece) : Groups ps (build ps) ∧ LawfulAll [] (build ps) := by
  have hstart : Grown [] [] ⟨[], []⟩ := .outside .nil trivial rfl
  have hgrown := hstart.foldl_push ps
  obtain ⟨ds, tokens, hg⟩ := exists_givesUp_all (ps.foldl push ⟨[], []⟩)
  have hend := hgrown.givesUp hg
  rw [build, hg.finish_eq]
  cases hend with
  | outside h hlawful _ => exact ⟨h, hlawful⟩

/-! ## What the nest makes of lawful groups -/

/-- A run over the pieces of lawful groups adds these to the nest, but that regions without closing
brackets at the end are still open. -/
theorem givesUp_of_groups {ts : List Token} (h : Groups ps ts) (n : Nest)
    (hlawful : LawfulAll n.delimiters ts) :
    GivesUp (trailAll ts).reverse (ps.foldl push n) (n.addAll ts) := by
  induction h generalizing n with
  | nil => exact .refl n
  | @leaf k s l ps ts _ ih =>
    obtain ⟨-, -, hrest⟩ := hlawful
    rw [← delimiters_add n (.leaf k s l)] at hrest
    rw [trailAll_cons rfl]
    exact ih (n.add (.leaf k s l)) hrest
  | @unterminated s l ps ts _ ih =>
    obtain ⟨-, -, hrest⟩ := hlawful
    rw [← delimiters_add n (.group (.error .unterminatedComment) s l [])] at hrest
    rw [trailAll_cons rfl]
    exact ih (n.add (.group (.error .unterminatedComment) s l [])) hrest
  | @stray d s l ps ts _ ih =>
    obtain ⟨⟨hd, -⟩, -, hrest⟩ := hlawful
    have hpush : n.push ⟨.closer d, s, l⟩ = n.add (.group (.error (.stray d)) s l []) :=
      close_of_absent hd s l
    rw [← delimiters_add n (.group (.error (.stray d)) s l [])] at hrest
    rw [trailAll_cons rfl, List.foldl_cons, hpush]
    exact ih (n.add (.group (.error (.stray d)) s l [])) hrest
  | @block d s s' l l' inside ps children ts _ _ ihin ih =>
    obtain ⟨hblock, -, hrest⟩ := hlawful
    obtain ⟨hd, hchildren⟩ := lawful_close.1 hblock
    rw [List.reverse_reverse] at hd hchildren
    have hin := ihin ⟨⟨d, s.start, l, []⟩ :: n.frames, n.tokens⟩ hchildren
    rw [addAll_inside, List.append_nil] at hin
    have hnot : d ∉ (trailAll children).reverse := by
      intro hmem
      exact hd (List.mem_reverse.1 hmem)
    have hclose := close_of_givesUp hin hnot s' l'
    rw [trailAll_cons (trail_close _ _ _), List.foldl_cons, List.foldl_append, List.foldl_cons]
    have hpush : (inside.foldl push (n.push ⟨.opener d, s, l⟩)).push ⟨.closer d, s', l'⟩ =
        n.add (Frame.close ⟨d, s.start, l, children.reverse⟩ l' s'.stop) := hclose
    rw [← delimiters_add n (Frame.close ⟨d, s.start, l, children.reverse⟩ l' s'.stop)] at hrest
    rw [hpush]
    exact ih (n.add (Frame.close ⟨d, s.start, l, children.reverse⟩ l' s'.stop)) hrest
  | @unclosed d s l inside ps children ts _ hps ihin _ =>
    obtain ⟨hunclosed, hlast, -⟩ := hlawful
    have htrail : trail (Frame.giveUp ⟨d, s.start, l, children.reverse⟩) =
        d :: trailAll children := by
      rw [trail_giveUp, List.reverse_reverse]
    -- nothing follows the region, so its frame stays open
    obtain rfl := hlast (by rw [htrail]; exact List.cons_ne_nil _ _)
    obtain rfl := hps.eq_nil
    have hchildren := lawful_giveUp.1 hunclosed
    rw [List.reverse_reverse] at hchildren
    have hin := ihin ⟨⟨d, s.start, l, []⟩ :: n.frames, n.tokens⟩ hchildren
    rw [addAll_inside, List.append_nil] at hin
    have hopen := hin.snoc
    rw [← List.reverse_cons, ← htrail] at hopen
    rw [List.append_nil]
    exact hopen

/-- The nest makes of pieces all lawful groups of them. -/
theorem build_eq {ts : List Token} (h : Groups ps ts) (hlawful : LawfulAll [] ts) :
    build ps = ts := by
  have hrun := givesUp_of_groups h ⟨[], []⟩ hlawful
  rw [build, hrun.finish_eq, addAll_outside, List.append_nil]
  exact List.reverse_reverse ts

end Nest

/-- Recovery matches each closing bracket with the nearest open one of its kind. The tree of an
input is subject to the laws of recovery, and no other forest of the same pieces is. -/
theorem lex_recovered (config : Config) (source : Text) :
    let pieces := (Scan.ofBuffer config true 0 .normal ⟨some 0, source⟩).pieces
    Recovered (lex config source) ∧ Groups pieces (lex config source) ∧
      ∀ tokens, Groups pieces tokens → Recovered tokens → tokens = lex config source := by
  intro pieces
  have hlex : lex config source = Nest.build pieces := rfl
  obtain ⟨hgroups, hlawful⟩ := Nest.groups_build pieces
  rw [hlex]
  refine ⟨lawfulAll_nil_iff.1 hlawful, hgroups, ?_⟩
  intro tokens htokens hrecovered
  exact (Nest.build_eq htokens (lawfulAll_nil_iff.2 hrecovered)).symm

end TokenTree
