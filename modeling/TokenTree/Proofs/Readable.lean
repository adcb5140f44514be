import TokenTree.Proofs.Quoted
import TokenTree.Proofs.Tiling
import TokenTree.Proofs.Walk

/-!
# Tokens that can be read

Not all that can be asked of a token has an answer for every token: a block need not be long enough
to have an inside, and the children of a group may not fit its text. The tokens that are made of
pieces of an input can all be read (`Token.readable_of_groups`): a string is between its quotes, a
block between its brackets, and the text put together from the leaves of a forest is that of its
tokens.
-/

namespace TokenTree

namespace Token

/-- What can be asked of the token has an answer. -/
structure Readable (t : Token) : Prop where
  /-- The offsets are in order, and none is beyond the greatest one. -/
  span : t.span.start ≤ t.span.stop ∧ t.span.stop ≤ maxOffset
  inner : ∀ d, t.IsBlock d → t.innerText? = some (reconstruct t.children)
  value : ∀ q s l, t = leaf (.string q) s l →
    ∃ inside, t.text = q.char :: (inside ++ [q.char]) ∧ t.stringValue? = some inside
  expand : expand? [t] = some t.text

/-- What can be asked of the tokens, of those inside them and of all together has an answer. -/
structure ReadableAll (ts : List Token) : Prop where
  each : ∀ t, Occurs t ts → Readable t
  expand : expand? ts = some (reconstruct ts)

/-! ## Texts put together from leaves -/

/-- The children of the token are a part of its text, and follow each other where that part
stands. -/
def Encloses (t : Token) : Prop :=
  t.children ≠ [] → ∃ before after, t.text = before ++ (reconstruct t.children ++ after) ∧
    Tiles (t.span.start + Text.size before)
      (t.span.start + Text.size before + Text.size (reconstruct t.children)) t.children

/-- The children of the token are a part of its text, and each sits where its text stands. -/
def Snug (t : Token) : Prop :=
  ∃ before after, t.text = before ++ (reconstruct t.children ++ after) ∧
    Sits (t.span.start + Text.size before) t.children

theorem Snug.encloses {t : Token} (h : Snug t) : Encloses t := by
  obtain ⟨before, after, htext, hsits⟩ := h
  exact fun _ => ⟨before, after, htext, hsits.tiles⟩

/-- Around the children of a token there are an opening bracket and what closes it, if anything
does. -/
theorem Framed.snug {t : Token} (h : Framed t) : Snug t := by
  have hbetween {d : Delimiter} {close : Text}
      (htext : t.text = d.opener :: (reconstruct t.children ++ close))
      (hsits : Sits (t.span.start + 1) t.children) : Snug t := by
    refine ⟨[d.opener], close, htext, ?_⟩
    rw [d.size_opener]
    exact hsits
  by_cases hblock : ∃ d, t.IsBlock d
  · obtain ⟨d, hd⟩ := hblock
    obtain ⟨htext, hsits⟩ := h.block d hd
    exact hbetween htext hsits
  · by_cases hunclosed : ∃ d, t.IsUnclosed d
    · obtain ⟨d, hd⟩ := hunclosed
      obtain ⟨htext, hsits⟩ := h.unclosed d hd
      rw [← List.append_nil (reconstruct t.children)] at htext
      exact hbetween htext hsits
    · have hnil := h.childless fun d => ⟨fun h => hblock ⟨d, h⟩, fun h => hunclosed ⟨d, h⟩⟩
      refine ⟨t.text, [], ?_, ?_⟩
      · rw [hnil]
        exact (List.append_nil _).symm
      · rw [hnil]
        trivial

/-- The margins of a group are the parts of its text around its children. -/
theorem margins?_eq {span : Span} {lexeme : Lexeme} {ts : List Token} {first last : Token}
    {before after : Text} (htext : lexeme.text = before ++ (reconstruct ts ++ after))
    (htiles : Tiles (span.start + Text.size before)
      (span.start + Text.size before + Text.size (reconstruct ts)) ts)
    (hfirst : ts.head? = some first) (hlast : ts.getLast? = some last) :
    margins? span lexeme first.span last.span = some (before, after) := by
  have hstart : first.span.start = span.start + Text.size before := by
    obtain ⟨us, rfl⟩ := List.head?_eq_some_iff.1 hfirst
    exact htiles.1
  have hstop : last.span.stop =
      span.start + Text.size before + Text.size (reconstruct ts) := by
    have hstop := stop_of_tiles htiles
    rwa [hlast] at hstop
  have hhead : lexeme.slice? 0 (first.span.start - span.start) = some before := by
    rw [hstart, Nat.add_sub_cancel_left, Lexeme.slice?_eq, Text.slice?_eq_some_iff]
    exact ⟨[], reconstruct ts ++ after, htext, rfl, Nat.zero_add _⟩
  have htail : lexeme.slice? (last.span.stop - span.start) lexeme.length = some after := by
    rw [hstop, Nat.add_assoc, Nat.add_sub_cancel_left, Lexeme.slice?_eq, ← Lexeme.size_text,
      Text.slice?_eq_some_iff]
    refine ⟨before ++ reconstruct ts, [], ?_, Text.size_append _ _, ?_⟩
    · rw [htext, List.append_nil, List.append_assoc]
    · rw [htext, Text.size_append, Text.size_append, Nat.add_assoc]
  rw [margins?, if_neg (by omega), hhead, htail]
  rfl

theorem expandOnto_group {k : GroupKind} {s : Span} {l : Lexeme} {ts : List Token} (out : Text)
    (hencloses : Encloses (group k s l ts))
    (hinside : ∀ out, expandAllOnto out ts = some ((reconstruct ts).reverseAux out)) :
    expandOnto out (group k s l ts) = some (l.text.reverseAux out) := by
  rw [expandOnto]
  cases hfirst : ts.head? with
  | none => rfl
  | some first =>
    have hne : ts ≠ [] := by
      rintro rfl
      cases hfirst
    obtain ⟨before, after, htext, htiles⟩ := hencloses hne
    have htext : l.text = before ++ (reconstruct ts ++ after) := htext
    have hlast := List.getLast?_eq_some_getLast hne
    have hmargins : margins? s l first.span (ts.getLast hne).span = some (before, after) :=
      margins?_eq htext htiles hfirst hlast
    simp only [hlast, hmargins, hinside, Option.map_some, htext]
    simp [List.reverseAux_eq]

/-- The text put together from the leaves is that of the tokens, if the children of each fit its
text. -/
theorem expandAllOnto_eq : (ts : List Token) → (∀ t, Occurs t ts → Encloses t) → (out : Text) →
    expandAllOnto out ts = some ((reconstruct ts).reverseAux out)
  | [], _, out => by rw [expandAllOnto]; rfl
  | leaf k s l :: ts, h, out => by
    have hrest := expandAllOnto_eq ts fun t ht => h t (occurs_cons.2 (Or.inr (Or.inr ht)))
    rw [expandAllOnto, expandOnto, reconstruct_cons]
    simp only [hrest, List.reverseAux_eq, List.reverse_append, List.append_assoc]
    rfl
  | group k s l inside :: ts, h, out => by
    have hinside := expandAllOnto_eq inside fun t ht => h t (occurs_cons.2 (Or.inr (Or.inl ht)))
    have hrest := expandAllOnto_eq ts fun t ht => h t (occurs_cons.2 (Or.inr (Or.inr ht)))
    have hself := expandOnto_group out (h _ (occurs_cons.2 (Or.inl rfl))) hinside
    rw [expandAllOnto, hself, reconstruct_cons]
    simp only [hrest, List.reverseAux_eq, List.reverse_append, List.append_assoc]
    rfl

theorem expand?_eq {ts : List Token} (h : ∀ t, Occurs t ts → Encloses t) :
    expand? ts = some (reconstruct ts) := by
  rw [expand?, expandAllOnto_eq ts h, Option.map_some, List.reverseAux_eq, List.append_nil,
    List.reverse_reverse]

/-! ## Strings -/

/-- Each leaf of a forest is a piece. -/
theorem mem_of_leaf {ps : List Piece} {ts : List Token} (h : Groups ps ts) {k : LeafKind}
    {s : Span} {l : Lexeme} (ht : Occurs (leaf k s l) ts) : ⟨.leaf k, s, l⟩ ∈ ps := by
  obtain ⟨⟨kind, s', l'⟩, hp, hbegins⟩ := h.exists_begins ht
  cases kind with
  | leaf k' =>
    cases hbegins
    exact hp
  | unterminated => cases hbegins
  | opener d => rcases hbegins with hd | hd <;> cases hd
  | closer d => cases hbegins

/-- Tokens of a forest that is made of the pieces of an input can be read. -/
theorem readable_of_groups {ps : List Piece} {ts us : List Token} (h : Groups ps ts)
    (hlaid : Laid 0 ps) (hwrapped : ∀ p ∈ ps, p.Wrapped)
    (hfit : Text.size (textOf ps) ≤ maxOffset) (hsub : ∀ t, Occurs t us → Occurs t ts) :
    ReadableAll us := by
  have hframed := h.framed hlaid
  have hsits := h.sits hlaid
  have hsource : textOf ps = [] ++ (reconstruct ts ++ []) := by
    rw [h.reconstruct_eq, List.append_nil, List.nil_append]
  refine ⟨?_, expand?_eq fun t ht => (hframed t (hsub t ht)).snug.encloses⟩
  intro t ht
  replace ht := hsub t ht
  refine ⟨?_, ?_, ?_, ?_⟩
  · obtain ⟨left, right, hsplit, hspan⟩ := exists_split ht hsource hsits hframed
    rw [hsplit, Text.size_append, Text.size_append] at hfit
    rw [hspan]
    exact ⟨Nat.le_add_right _ _, by simp only; omega⟩
  · intro d hd
    exact innerText?_block hd ((hframed t ht).block d hd).1
  · rintro q s l rfl
    obtain ⟨inside, htext⟩ := hwrapped _ (mem_of_leaf h ht) q rfl
    have hquote : Text.size [q.char] = 1 := by rw [Text.size_cons, q.size_char, Text.size_nil]
    exact ⟨inside, htext, unwrapped?_eq hquote hquote htext⟩
  · have hself (u : Token) (hu : Occurs u [t]) : Encloses u := by
      rcases occurs_cons.1 hu with rfl | hu | hu
      · exact (hframed u ht).snug.encloses
      · exact (hframed u (ht.trans hu)).snug.encloses
      · exact absurd hu occurs_nil
    rw [expand?_eq hself, reconstruct_cons]
    exact congrArg some (List.append_nil _)

end Token

end TokenTree
