import Mathlib.Data.List.Chain
import TokenTree.Proofs.Composites

/-!
# Forests whose text can be put together from the leaves

A group gives the text before its first child and the text after its last one, and it finds them by
the spans of these two children. So the text put together from the leaves is that of the tokens in
every forest in which the groups are consistent with their children, wherever the forest comes from
(`Token.consistent_expands`): a group is as long as its text, its children follow each other inside
it, and the texts around its children are as long as the gaps around their spans. A leaf need not be
as long as its text.

The trees of inputs up to the greatest offset are such forests, as are the tokens that a session
hands over, and patterns keep it so, however often they are applied. They do because the tokens are
orderly: in a list of siblings each sits where the text of those before it ends. In a longer input a
group may have more text than its span says (`Token.consistent_expands_fails_beyond`).
-/

namespace TokenTree

namespace Token

/-- The token is as long as its text, and its children, text and span, stand inside it. -/
structure Consistent (t : Token) : Prop where
  length : t.span.length? = some (Text.size t.text)
  contiguous : t.children.IsChain fun a b => a.span.stop = b.span.start
  inside : ∀ u ∈ t.children, t.span.start ≤ u.span.start ∧ u.span.stop ≤ t.span.stop
  margins : ∀ first ∈ t.children.head?, ∀ last ∈ t.children.getLast?, ∃ before after,
    t.text = before ++ (reconstruct t.children ++ after) ∧
      Text.size before = first.span.start - t.span.start ∧
      Text.size after = t.span.stop - last.span.stop

/-- Each token with children, at any depth, is consistent with them. -/
def ConsistentAll (ts : List Token) : Prop := ∀ t, Occurs t ts → t.children ≠ [] → Consistent t

/-! ## From spans to texts -/

/-- Tokens follow each other exactly if each stops where the next one starts. -/
theorem tiles_iff_isChain {ts : List Token} {first last : Token} (hfirst : ts.head? = some first)
    (hlast : ts.getLast? = some last) :
    Tiles first.span.start last.span.stop ts ↔
      ts.IsChain fun a b => a.span.stop = b.span.start := by
  induction ts generalizing first with
  | nil => cases hfirst
  | cons t ts ih =>
    cases hfirst
    cases ts with
    | nil =>
      cases hlast
      simp [Tiles]
    | cons u ts =>
      rw [List.getLast?_cons_cons] at hlast
      have hts := ih rfl hlast
      rw [Tiles, and_iff_right rfl] at hts
      rw [Tiles, and_iff_right rfl, Tiles, List.isChain_cons_cons, ← hts]
      exact and_congr_left' eq_comm

theorem Consistent.encloses {t : Token} (h : Consistent t) : Encloses t := by
  intro hne
  obtain ⟨first, hfirst⟩ := Option.isSome_iff_exists.1 (List.isSome_head?.2 hne)
  have hlast := List.getLast?_eq_some_getLast hne
  obtain ⟨before, after, htext, hbefore, hafter⟩ := h.margins first hfirst _ hlast
  have htiles := (tiles_iff_isChain hfirst hlast).2 h.contiguous
  have hstart := (h.inside first (List.mem_of_head? hfirst)).1
  have hstop := (h.inside _ (List.mem_of_getLast? hlast)).2
  obtain ⟨hordered, hlength⟩ :
      t.span.start ≤ t.span.stop ∧ t.span.stop - t.span.start = Text.size t.text := by
    simpa [Span.length?] using h.length
  rw [htext, Text.size_append, Text.size_append] at hlength
  refine ⟨before, after, htext, ?_⟩
  have hfrom : t.span.start + Text.size before = first.span.start := by omega
  have hto : first.span.start + Text.size (reconstruct t.children) =
      (t.children.getLast hne).span.stop := by omega
  rw [hfrom, hto]
  exact htiles

/-- A token without children encloses them whatever its span and text. -/
theorem ConsistentAll.encloses {ts : List Token} (h : ConsistentAll ts) :
    ∀ t, Occurs t ts → Encloses t := by
  intro t ht hne
  exact (h t ht hne).encloses hne

/-! ## Orderly forests -/

theorem Sits.isChain {pos : Nat} {ts : List Token} (h : Sits pos ts) :
    ts.IsChain fun a b => a.span.stop = b.span.start := by
  cases ts with
  | nil => exact .nil
  | cons t ts =>
    have hlast := List.getLast?_eq_some_getLast (List.cons_ne_nil t ts)
    have hstop := stop_of_tiles h.tiles
    rw [hlast] at hstop
    have htiles := h.tiles
    rw [← hstop, ← htiles.1] at htiles
    exact (tiles_iff_isChain rfl hlast).1 htiles

theorem Sits.stop_eq {pos : Nat} {ts : List Token} (h : Sits pos ts) :
    ∀ t ∈ ts, t.span.stop = t.span.start + Text.size t.text := by
  induction ts generalizing pos with
  | nil => exact List.forall_mem_nil _
  | cons t ts ih =>
    obtain ⟨ht, hts⟩ := h
    refine List.forall_mem_cons.2 ⟨?_, ih hts⟩
    rw [ht]

namespace Orderly

variable {ts us : List Token} {t : Token}

/-- At every depth a token is as long as its text. -/
theorem stop_eq (h : Orderly ts) (ht : Occurs t ts) :
    t.span.stop = t.span.start + Text.size t.text := by
  obtain ⟨pos, hsits⟩ := h.sits
  have hsnug := h.snug
  clear h
  induction ht generalizing pos with
  | here ht => exact hsits.stop_eq _ ht
  | inside hu _ ih =>
    obtain ⟨before, after, -, hchildren⟩ := hsnug _ (.here hu)
    exact ih _ hchildren fun v hv => hsnug v (.inside hu hv)

theorem consistent (h : Orderly ts) (ht : Occurs t ts) : Consistent t := by
  have hstop := h.stop_eq ht
  obtain ⟨before, after, htext, hsits⟩ := h.snug t ht
  have hsize : Text.size t.text =
      Text.size before + (Text.size (reconstruct t.children) + Text.size after) := by
    rw [htext, Text.size_append, Text.size_append]
  constructor
  case length =>
    rw [Span.length?, if_pos (by omega), hstop, Nat.add_sub_cancel_left]
  case contiguous => exact hsits.isChain
  case inside =>
    intro u hu
    have hbounds := hsits.bounds u hu
    omega
  case margins =>
    intro first hfirst last hlast
    have hstart : first.span.start = t.span.start + Text.size before := by
      obtain ⟨us, hus⟩ := List.head?_eq_some_iff.1 hfirst
      have htiles := hsits.tiles
      rw [hus] at htiles
      exact htiles.1
    have hend : last.span.stop =
        t.span.start + Text.size before + Text.size (reconstruct t.children) := by
      have hend := stop_of_tiles hsits.tiles
      rwa [hlast] at hend
    exact ⟨before, after, htext, by omega, by omega⟩

theorem of_infix (h : Orderly ts) (hus : us <:+: ts) : Orderly us := by
  obtain ⟨pos, hsits⟩ := h.sits
  refine ⟨PatternSet.exists_sits_of_infix hsits hus, fun t ht => h.snug t ?_⟩
  obtain ⟨before, after, rfl⟩ := hus
  exact occurs_append.2 (Or.inl (occurs_append.2 (Or.inr ht)))

theorem of_groups {ps : List Piece} (h : Groups ps ts) {pos : Nat} (hlaid : Laid pos ps) :
    Orderly ts :=
  PatternSet.orderly_of_framed (h.sits hlaid) (h.framed hlaid)

/-- Patterns keep the tokens orderly, however often they are applied. -/
theorem foldl_apply (h : Orderly ts) (sets : List PatternSet) :
    Orderly (sets.foldl (fun ts s => s.apply ts) ts) := by
  induction sets generalizing ts with
  | nil => exact h
  | cons s sets ih =>
    rw [List.foldl_cons, s.apply_eq]
    exact ih (s.orderly_rewrite h)

theorem consistentAll (h : Orderly ts) : ConsistentAll ts := fun _ ht _ => h.consistent ht

end Orderly

end Token

open Token

/-! ## The tokens of a session -/

namespace Session

variable {config : Config} {s : Session} {emitted : List Token} {ps : List Piece}

/-- After the last chunk nothing is handed over. -/
theorem tokens_feedEach_of_finished (h : s.finished = true) (config : Config)
    (calls : List (Text × Bool)) : (s.feedEach config calls).flatMap Output.tokens = [] := by
  induction calls with
  | nil => rfl
  | cons call calls ih =>
    rw [feedEach, feed_of_finished h, List.flatMap_cons, ih]
    rfl

/-- The tokens that a session hands over are a part of the tree of some pieces that follow each
other. -/
theorem MadeOf.exists_build_feedEach (h : MadeOf s emitted ps) (hready : Checked.Ready config s)
    (calls : List (Text × Bool)) :
    ∃ qs more, Laid 0 qs ∧
      Nest.build qs = emitted ++ ((s.feedEach config calls).flatMap Output.tokens ++ more) := by
  induction calls generalizing s emitted ps with
  | nil =>
    obtain ⟨newer, hnewer⟩ := (⟨s.frames, emitted.reverse⟩ : Nest).exists_tokens_finish
    refine ⟨ps, newer.reverse, h.laid, ?_⟩
    rw [Nest.build, ← h.nest, hnewer, List.reverse_append, List.reverse_reverse]
    rfl
  | cons call calls ih =>
    obtain ⟨chunk, final⟩ := call
    rw [feedEach, List.flatMap_cons]
    by_cases hsize : s.offset + Text.size s.pending + Text.size chunk ≤ maxOffset
    · cases final with
      | true =>
        obtain ⟨qs, more, hlaid, -, -, hbuild⟩ := h.exists_build hready true hsize
        have hfinished : (s.feed config chunk true).1.finished = true := by
          rw [feed_eq_scan hready.rests true hsize]
          rfl
        rw [tokens_feedEach_of_finished hfinished, List.append_nil]
        exact ⟨qs, more, hlaid, hbuild⟩
      | false =>
        obtain ⟨qs, hmade⟩ := h.feed hready hsize
        obtain ⟨qs', more, hlaid, hbuild⟩ := ih hmade (hready.feed chunk)
        refine ⟨qs', more, hlaid, ?_⟩
        rw [hbuild]
        simp only [List.append_assoc]
    · rw [feed_of_unfit hready.rests.unfinished (Nat.lt_of_not_le hsize)]
      exact ih h hready

/-- Any tokens that a session hands over next to each other are orderly. -/
theorem orderly_feedEach (config : Config) (calls : List (Text × Bool)) {ts : List Token}
    (hts : ts <:+: (start.feedEach config calls).flatMap Output.tokens) : Orderly ts := by
  obtain ⟨qs, more, hlaid, hbuild⟩ :=
    start_madeOf.exists_build_feedEach (Checked.start_ready config) calls
  have horderly : Orderly (Nest.build qs) := .of_groups (Nest.groups_build qs).1 hlaid
  rw [hbuild, List.nil_append] at horderly
  exact horderly.of_infix (hts.trans (List.prefix_append _ _).isInfix)

end Session

/-- The text of a consistent forest can be put together from its leaves, and is then that of its
tokens, whatever the forest was made of. The tree of an input up to the greatest offset is
consistent, and so are tokens that a session hands over, in one answer or in several; and they stay
so when patterns are applied to them, once or again and again. -/
theorem Token.consistent_expands :
    (∀ ts, ConsistentAll ts → expand? ts = some (reconstruct ts)) ∧
    ∀ config (sets : List PatternSet),
      (∀ source, Text.size source ≤ maxOffset →
        Checked.lex config source = .ok (lex config source) ∧
          ConsistentAll (sets.foldl (fun ts s => s.apply ts) (lex config source))) ∧
      ∀ calls ts, ts <:+: (Session.start.feedEach config calls).flatMap Output.tokens →
        ConsistentAll (sets.foldl (fun ts s => s.apply ts) ts) := by
  refine ⟨fun ts h => expand?_eq h.encloses, fun config sets => ⟨?_, ?_⟩⟩
  · intro source hfit
    obtain ⟨ps, hgroups, hlaid, -⟩ := exists_pieces_lex config source
    have horderly : Orderly (lex config source) := .of_groups hgroups hlaid
    exact ⟨Checked.lex_eq config hfit, (horderly.foldl_apply sets).consistentAll⟩
  · intro calls ts hts
    have horderly := Session.orderly_feedEach config calls hts
    exact (horderly.foldl_apply sets).consistentAll

/-- A group that is wider than its children on both sides, and has leaves that are not as long as
their texts: only both together are. -/
theorem Token.consistent_expands_margins :
    let leaves := [leaf .ident ⟨9, 10⟩ (.copied ['x', 'y']), leaf .ident ⟨10, 12⟩ (.copied ['z'])]
    let text := ['«', '«', 'x', 'y', 'z', '»', ')']
    let wide := group (.composite "pair") ⟨5, 15⟩ (.copied text) leaves
    ConsistentAll [wide] ∧ expand? [wide] = some text := by
  intro leaves text wide
  have hwide : Consistent wide := by
    constructor
    case length => decide
    case contiguous => simp [wide, leaves, children, span]
    case inside => simp [wide, leaves, children, span]
    case margins =>
      rintro first ⟨⟩ last ⟨⟩
      exact ⟨['«', '«'], ['»', ')'], rfl, rfl, rfl⟩
  have hall : ConsistentAll [wide] := by
    intro t ht hne
    rcases occurs_cons.1 ht with rfl | ht | ht
    · exact hwide
    · -- the leaves have no children
      rcases occurs_cons.1 ht with rfl | ht | ht
      · exact absurd rfl hne
      · exact absurd ht occurs_nil
      rcases occurs_cons.1 ht with rfl | ht | ht
      · exact absurd rfl hne
      · exact absurd ht occurs_nil
      · exact absurd ht occurs_nil
    · exact absurd ht occurs_nil
  exact ⟨hall, consistent_expands.1 [wide] hall⟩

/-- One letter more in an open block than offsets can say: the last letter is behind the end of the
block, and is given again by the block itself. -/
theorem Token.consistent_expands_fails_beyond :
    ∃ tokens, Checked.lex .default ('(' :: List.replicate maxOffset 'a') = .ok tokens ∧
      ¬ ConsistentAll tokens ∧ expand? tokens ≠ some (reconstruct tokens) := by
  obtain ⟨whole, letters, hwhole, hletters, hlex⟩ := Checked.lex_opener_letters
  let tokens := [group (.error (.unclosed .paren)) ⟨0, maxOffset⟩ whole
    [leaf .ident ⟨1, maxOffset⟩ letters]]
  have htext : reconstruct tokens = '(' :: List.replicate maxOffset 'a' := by
    rw [reconstruct_cons, text, lexeme, hwhole]
    exact List.append_nil _
  have hexpand : expand? tokens ≠ some (reconstruct tokens) := by
    rw [Checked.expand?_opener_letters hwhole hletters, htext]
    intro h
    exact List.cons_ne_nil 'a' [] (List.append_right_eq_self.1 (Option.some.inj h))
  exact ⟨tokens, hlex, fun h => hexpand (expand?_eq h.encloses), hexpand⟩

end TokenTree
