import TokenTree.Proofs.Matching
import TokenTree.Proofs.Walk

/-!
# Well-nested input

The tree of an input has no malformed region exactly if the brackets of the input are well nested
and no block comment is left open. Then its blocks are the pairs of the brackets as one reads them
(`lex_errors_iff`).

A forest without malformed regions is a reading of the brackets of its pieces (`Groups.reads`).
Conversely, pieces whose brackets are well nested can be grouped into a forest in which no bracket
is recovered from (`Reads.exists_groups`). That is lawful, so it is the forest that the nest builds.
-/

namespace TokenTree

open Token

/-- A bracket that is a piece of its own, with its place in the input. -/
inductive Bracket where
  | opening (delimiter : Delimiter) (span : Span)
  | closing (delimiter : Delimiter) (span : Span)

/-- The bracket that a piece is. -/
def Piece.bracket? (p : Piece) : Option Bracket :=
  match p.kind with
  | .opener d => some (.opening d p.span)
  | .closer d => some (.closing d p.span)
  | _ => none

/-- The brackets among pieces, in their order. -/
def brackets (ps : List Piece) : List Bracket := ps.filterMap Piece.bracket?

/-- Two brackets that belong together: their kind, and where the opening one starts and the closing
one stops. -/
abbrev Pair : Type := Delimiter × Span

/-- The brackets are well nested and these are the pairs, in the order of their opening brackets. -/
inductive Reads : List Bracket → List Pair → Prop
  | nil : Reads [] []
  | pair {d : Delimiter} {s s' : Span} {inside rest : List Bracket} {pairs pairs' : List Pair}
    (hin : Reads inside pairs) (h : Reads rest pairs') :
    Reads (.opening d s :: (inside ++ .closing d s' :: rest))
      ((d, ⟨s.start, s'.stop⟩) :: (pairs ++ pairs'))

/-- The brackets around a block. -/
def Token.pair? (t : Token) : Option Pair := t.delimiter?.map (·, t.span)

/-- The brackets around all blocks of a forest, at any depth. -/
def blockPairs (ts : List Token) : List Pair := (preorderAll ts).filterMap pair?

theorem brackets_append (ps qs : List Piece) : brackets (ps ++ qs) = brackets ps ++ brackets qs :=
  List.filterMap_append

theorem brackets_cons_none {p : Piece} (h : p.bracket? = none) (ps : List Piece) :
    brackets (p :: ps) = brackets ps := List.filterMap_cons_none h

theorem brackets_cons_some {p : Piece} {b : Bracket} (h : p.bracket? = some b) (ps : List Piece) :
    brackets (p :: ps) = b :: brackets ps := List.filterMap_cons_some h

theorem blockPairs_nil : blockPairs [] = [] := by
  rw [blockPairs, preorderAll_nil, List.filterMap_nil]

theorem blockPairs_cons (t : Token) (ts : List Token) :
    blockPairs (t :: ts) = t.pair?.toList ++ (blockPairs t.children ++ blockPairs ts) := by
  simp only [blockPairs, preorderAll_cons, List.filterMap_cons, List.filterMap_append]
  cases t.pair? <;> rfl

theorem blockPairs_append (ts us : List Token) :
    blockPairs (ts ++ us) = blockPairs ts ++ blockPairs us := by
  rw [blockPairs, preorderAll_append, List.filterMap_append]
  rfl

/-- A block is one more pair, before those inside it and those behind it. -/
theorem blockPairs_close {d : Delimiter} {start stop : Nat} {opener closer : Lexeme}
    {inside ts : List Token} :
    blockPairs (Frame.close ⟨d, start, opener, inside.reverse⟩ closer stop :: ts) =
      (d, ⟨start, stop⟩) :: (blockPairs inside ++ blockPairs ts) := by
  rw [blockPairs_cons, Frame.children_close]
  rfl

/-! ## Forests without malformed regions -/

/-- No token of the forest is a malformed region. -/
def Sound (ts : List Token) : Prop := ∀ t, Occurs t ts → t.isError = false

theorem sound_cons {t : Token} {ts : List Token} :
    Sound (t :: ts) ↔ t.isError = false ∧ Sound t.children ∧ Sound ts := by
  constructor
  · intro h
    refine ⟨h t (occurs_cons.2 (Or.inl rfl)), ?_, ?_⟩
    · intro u hu
      exact h u (occurs_cons.2 (Or.inr (Or.inl hu)))
    · intro u hu
      exact h u (occurs_cons.2 (Or.inr (Or.inr hu)))
  · rintro ⟨ht, hin, hts⟩ u hu
    rcases occurs_cons.1 hu with rfl | hu | hu
    · exact ht
    · exact hin u hu
    · exact hts u hu

/-- A forest without malformed regions is a reading of the brackets that it is made of, and no
block comment among its pieces is left open. -/
theorem Groups.reads {ps : List Piece} {ts : List Token} (h : Groups ps ts) (hsound : Sound ts) :
    Reads (brackets ps) (blockPairs ts) ∧ ∀ p ∈ ps, p.kind ≠ .unterminated := by
  induction h with
  | nil =>
    rw [blockPairs_nil]
    exact ⟨.nil, List.forall_mem_nil _⟩
  | leaf _ ih =>
    obtain ⟨hreads, hclosed⟩ := ih (sound_cons.1 hsound).2.2
    rw [brackets_cons_none rfl, blockPairs_cons]
    exact ⟨hreads, List.forall_mem_cons.2 ⟨nofun, hclosed⟩⟩
  | unterminated _ _ => cases (sound_cons.1 hsound).1
  | stray _ _ => cases (sound_cons.1 hsound).1
  | @block d s s' l l' inside ps children ts _ _ ihin ih =>
    obtain ⟨-, hchildren, hts⟩ := sound_cons.1 hsound
    rw [Frame.children_close] at hchildren
    obtain ⟨hreadsIn, hclosedIn⟩ := ihin hchildren
    obtain ⟨hreads, hclosed⟩ := ih hts
    rw [blockPairs_close, brackets_cons_some rfl, brackets_append, brackets_cons_some rfl]
    refine ⟨.pair hreadsIn hreads, List.forall_mem_cons.2 ⟨nofun, ?_⟩⟩
    exact List.forall_mem_append.2 ⟨hclosedIn, List.forall_mem_cons.2 ⟨nofun, hclosed⟩⟩
  | unclosed _ _ _ _ => cases (sound_cons.1 hsound).1

/-! ## Pieces with well-nested brackets -/

/-- The only malformed regions of the forest are block comments that were left open. -/
def Unrecovered (ts : List Token) : Prop :=
  ∀ t, Occurs t ts → t.isError = true → t.groupKind? = some (.error .unterminatedComment)

theorem unrecovered_nil : Unrecovered [] := fun _ ht => absurd ht occurs_nil

theorem Unrecovered.append {ts us : List Token} (hts : Unrecovered ts) (hus : Unrecovered us) :
    Unrecovered (ts ++ us) := by
  intro t ht
  rcases occurs_append.1 ht with ht | ht
  · exact hts t ht
  · exact hus t ht

theorem Unrecovered.cons {t : Token} {ts : List Token}
    (ht : t.isError = true → t.groupKind? = some (.error .unterminatedComment))
    (hin : Unrecovered t.children) (hts : Unrecovered ts) : Unrecovered (t :: ts) := by
  intro u hu
  rcases occurs_cons.1 hu with rfl | hu | hu
  · exact ht
  · exact hin u hu
  · exact hts u hu

/-- A forest in which no bracket is recovered from is subject to the laws of recovery. -/
theorem Unrecovered.recovered {ts : List Token} (h : Unrecovered ts) :
    Recovered ts := by
  have hunclosed (t : Token) (ht : Occurs t ts) (d : Delimiter) : ¬ t.IsUnclosed d := by
    intro hd
    cases t with
    | leaf k s l => cases hd
    | group k s l inside =>
      cases hd
      cases h _ ht rfl
  have hlast {siblings : List Token} (hin : ∀ t ∈ siblings, Occurs t ts) :
      UnclosedLast siblings := by
    rintro before t after d rfl ht
    exact absurd ht (hunclosed t (hin t (by simp)) d)
  refine ⟨?_, ⟨hlast fun t ht => .here ht, ?_⟩, ?_⟩
  · intro a t d ha _ ht hd
    cases t with
    | leaf k s l => cases hd
    | group k s l inside =>
      cases hd
      cases h _ (ha.trans ht) rfl
  · intro a ha
    exact hlast fun t ht => ha.trans (.here ht)
  · intro b t d hb _ ht
    exact hunclosed t (hb.trans ht.occurs) d

/-- Pieces without brackets are each a token. -/
theorem exists_groups_of_brackets_nil {ps : List Piece} (h : brackets ps = []) :
    ∃ ts, Groups ps ts ∧ blockPairs ts = [] ∧ Unrecovered ts := by
  induction ps with
  | nil => exact ⟨[], .nil, blockPairs_nil, unrecovered_nil⟩
  | cons p ps ih =>
    obtain ⟨kind, s, l⟩ := p
    cases kind with
    | leaf k =>
      rw [brackets_cons_none rfl] at h
      obtain ⟨ts, hgroups, hpairs, hts⟩ := ih h
      refine ⟨_, .leaf hgroups, ?_, .cons nofun unrecovered_nil hts⟩
      rw [blockPairs_cons, hpairs]
      rfl
    | unterminated =>
      rw [brackets_cons_none rfl] at h
      obtain ⟨ts, hgroups, hpairs, hts⟩ := ih h
      refine ⟨_, .unterminated hgroups, ?_, .cons (fun _ => rfl) unrecovered_nil hts⟩
      rw [blockPairs_cons, hpairs]
      rfl
    | opener d =>
      rw [brackets_cons_some rfl] at h
      cases h
    | closer d =>
      rw [brackets_cons_some rfl] at h
      cases h

theorem Piece.eq_of_opening {p : Piece} {d : Delimiter} {s : Span}
    (h : p.bracket? = some (.opening d s)) : ∃ l, p = ⟨.opener d, s, l⟩ := by
  obtain ⟨kind, s', l⟩ := p
  cases kind with
  | opener e =>
    cases h
    exact ⟨l, rfl⟩
  | _ => cases h

theorem Piece.eq_of_closing {p : Piece} {d : Delimiter} {s : Span}
    (h : p.bracket? = some (.closing d s)) : ∃ l, p = ⟨.closer d, s, l⟩ := by
  obtain ⟨kind, s', l⟩ := p
  cases kind with
  | closer e =>
    cases h
    exact ⟨l, rfl⟩
  | _ => cases h

theorem brackets_eq_nil {ps : List Piece} (h : ∀ p ∈ ps, p.bracket? = none) : brackets ps = [] :=
  List.filterMap_eq_nil_iff.2 h

/-- Pieces with well-nested brackets are made into blocks of the pairs, and no bracket is left. -/
theorem Reads.exists_groups {bs : List Bracket} {pairs : List Pair} (h : Reads bs pairs)
    {ps : List Piece} (hps : brackets ps = bs) :
    ∃ ts, Groups ps ts ∧ blockPairs ts = pairs ∧ Unrecovered ts := by
  induction h generalizing ps with
  | nil => exact exists_groups_of_brackets_nil hps
  | @pair d s s' inside rest pairs pairs' _ _ ihin ih =>
    -- the pieces before the opening bracket, inside the pair, and from its closing bracket on
    obtain ⟨before, p, behind, rfl, hbefore, hp, hbehind⟩ := List.filterMap_eq_cons_iff.1 hps
    obtain ⟨l, rfl⟩ := Piece.eq_of_opening hp
    obtain ⟨within, after, rfl, hwithin, hafter⟩ := List.filterMap_eq_append_iff.1 hbehind
    obtain ⟨within', q, after, rfl, hwithin', hq, hrest⟩ := List.filterMap_eq_cons_iff.1 hafter
    obtain ⟨l', rfl⟩ := Piece.eq_of_closing hq
    have hin : brackets (within ++ within') = inside := by
      rw [brackets_append, brackets_eq_nil hwithin', List.append_nil]
      exact hwithin
    obtain ⟨us, husGroups, husPairs, hus⟩ := exists_groups_of_brackets_nil (brackets_eq_nil hbefore)
    obtain ⟨children, hchildrenGroups, hchildrenPairs, hchildren⟩ := ihin hin
    obtain ⟨ts, htsGroups, htsPairs, hts⟩ := ih hrest
    have hblock :
        Groups (⟨.opener d, s, l⟩ :: (within ++ within' ++ ⟨.closer d, s', l'⟩ :: after)) _ :=
      .block hchildrenGroups htsGroups
    have hgroups := husGroups.append hblock
    rw [List.append_assoc] at hgroups
    rw [← Frame.children_close d s.start s'.stop l l' children] at hchildren
    refine ⟨_, hgroups, ?_, hus.append (.cons nofun hchildren hts)⟩
    rw [blockPairs_append, husPairs, blockPairs_close, hchildrenPairs, htsPairs, List.nil_append]

/-- A block comment that is left open in the tree was so among the pieces. -/
theorem Groups.exists_unterminated {ps : List Piece} {ts : List Token} (h : Groups ps ts)
    {t : Token} (ht : Occurs t ts) (hkind : t.groupKind? = some (.error .unterminatedComment)) :
    ∃ p ∈ ps, p.kind = .unterminated := by
  obtain ⟨p, hp, hbegins⟩ := h.exists_begins ht
  exact ⟨p, hp, hbegins.unterminated hkind⟩

/-- The tree of an input has no malformed region exactly if the brackets that the scanner meets are
well nested and no block comment is left open; and if the brackets are well nested, the blocks of
the tree are their pairs. -/
theorem lex_errors_iff (config : Config) (source : Text) :
    let pieces := (Scan.ofBuffer config true 0 .normal ⟨some 0, source⟩).pieces
    (walkErrors (lex config source) = [] ↔
        (∃ pairs, Reads (brackets pieces) pairs) ∧ ∀ p ∈ pieces, p.kind ≠ .unterminated) ∧
      ∀ pairs, Reads (brackets pieces) pairs → blockPairs (lex config source) = pairs := by
  intro pieces
  have hlex : lex config source = Nest.build pieces := rfl
  obtain ⟨hgroups, -⟩ := Nest.groups_build pieces
  rw [hlex, walkErrors_eq_nil_iff]
  -- well-nested brackets leave the nest no choice
  have hbuild {pairs : List Pair} (h : Reads (brackets pieces) pairs) :
      blockPairs (Nest.build pieces) = pairs ∧ Unrecovered (Nest.build pieces) := by
    obtain ⟨ts, hts, hpairs, hunrecovered⟩ := h.exists_groups rfl
    rw [Nest.build_eq hts (lawfulAll_nil_iff.2 hunrecovered.recovered)]
    exact ⟨hpairs, hunrecovered⟩
  refine ⟨⟨?_, ?_⟩, fun pairs h => (hbuild h).1⟩
  · intro hsound
    obtain ⟨hreads, hclosed⟩ := hgroups.reads hsound
    exact ⟨⟨_, hreads⟩, hclosed⟩
  · rintro ⟨⟨pairs, hreads⟩, hclosed⟩ t ht
    cases herror : t.isError with
    | false => rfl
    | true =>
      obtain ⟨p, hp, hopen⟩ := hgroups.exists_unterminated ht ((hbuild hreads).2 t ht herror)
      exact absurd hopen (hclosed p hp)

end TokenTree
