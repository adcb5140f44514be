import TokenTree.Proofs.Detach
import TokenTree.Proofs.Matching
import TokenTree.Token.Walk

/-!
# Trees that cover their input

The tokens of an input put together are the input, and so it is at every depth: siblings follow each
other without a gap, and each token has the text that stands at its span (`lex_tiles`). The scanner
cuts pieces that follow each other (`Laid`), so this holds of all forests that the pieces of an
input can be grouped into, of which the tree is one.
-/

namespace TokenTree

namespace Token

/-- The tokens follow each other from `start` up to `stop`. -/
def Tiles (start stop : Nat) : List Token → Prop
  | [] => start = stop
  | t :: ts => t.span.start = start ∧ Tiles t.span.stop stop ts

theorem reconstruct_cons (t : Token) (ts : List Token) :
    reconstruct (t :: ts) = t.text ++ reconstruct ts := List.flatMap_cons

theorem reconstruct_append (ts us : List Token) :
    reconstruct (ts ++ us) = reconstruct ts ++ reconstruct us := List.flatMap_append

/-- The tokens follow each other from `pos` on, each as long as its text. -/
def Sits (pos : Nat) : List Token → Prop
  | [] => True
  | t :: ts => t.span = ⟨pos, pos + Text.size t.text⟩ ∧ Sits (pos + Text.size t.text) ts

theorem Sits.tiles {pos : Nat} {ts : List Token} (h : Sits pos ts) :
    Tiles pos (pos + Text.size (reconstruct ts)) ts := by
  induction ts generalizing pos with
  | nil => rfl
  | cons t ts ih =>
    obtain ⟨ht, hts⟩ := h
    rw [reconstruct_cons, Text.size_append, ← Nat.add_assoc, Tiles, ht]
    exact ⟨rfl, ih hts⟩

theorem sits_append {pos : Nat} {ts us : List Token} :
    Sits pos (ts ++ us) ↔ Sits pos ts ∧ Sits (pos + Text.size (reconstruct ts)) us := by
  induction ts generalizing pos with
  | nil => exact (and_iff_right trivial).symm
  | cons t ts ih =>
    rw [List.cons_append, Sits, ih, Sits, reconstruct_cons, Text.size_append, Nat.add_assoc,
      and_assoc]

theorem Sits.bounds {pos : Nat} {ts : List Token} (h : Sits pos ts) :
    ∀ t ∈ ts, pos ≤ t.span.start ∧ t.span.stop ≤ pos + Text.size (reconstruct ts) := by
  induction ts generalizing pos with
  | nil => exact nofun
  | cons u ts ih =>
    obtain ⟨hu, hts⟩ := h
    rw [reconstruct_cons, Text.size_append]
    intro t ht
    rcases List.mem_cons.1 ht with rfl | ht
    · rw [hu]
      exact ⟨Nat.le_refl _, by simp only; omega⟩
    · have hbounds := ih hts t ht
      omega

/-- The text of the token is that of its children with the brackets that are its own. -/
structure Framed (t : Token) : Prop where
  ne_nil : t.text ≠ []
  block : ∀ d, t.IsBlock d → t.text = d.opener :: (reconstruct t.children ++ [d.closer]) ∧
    Sits (t.span.start + 1) t.children
  unclosed : ∀ d, t.IsUnclosed d → t.text = d.opener :: reconstruct t.children ∧
    Sits (t.span.start + 1) t.children
  stray : ∀ d, t.IsStray d → t.text = [d.closer]
  childless : (∀ d, ¬ t.IsBlock d ∧ ¬ t.IsUnclosed d) → t.children = []

/-- The token is what stands at its span in the input, and its children are what is inside it. -/
structure Placed (source : Text) (t : Token) : Prop where
  text : source.slice? t.span.start t.span.stop = some t.text
  ne_nil : t.text ≠ []
  block : ∀ d, t.IsBlock d → t.text = d.opener :: (reconstruct t.children ++ [d.closer]) ∧
    Tiles (t.span.start + 1) (t.span.stop - 1) t.children ∧
    t.innerText? = some (reconstruct t.children)
  unclosed : ∀ d, t.IsUnclosed d → t.text = d.opener :: reconstruct t.children ∧
    Tiles (t.span.start + 1) t.span.stop t.children
  stray : ∀ d, t.IsStray d → t.text = [d.closer] ∧ t.children = []
  childless : (∀ d, ¬ t.IsBlock d ∧ ¬ t.IsUnclosed d) → t.children = []

theorem stop_of_tiles {start stop : Nat} {ts : List Token} (h : Tiles start stop ts) :
    ts.getLast?.elim start (·.span.stop) = stop := by
  induction ts generalizing start with
  | nil => exact h
  | cons t ts ih =>
    have hts := ih h.2
    cases ts with
    | nil => exact hts
    | cons u ts =>
      rw [List.getLast?_cons_cons]
      rw [List.getLast?_cons] at hts ⊢
      exact hts

end Token

namespace Frame

open Token

theorem text_close (f : Frame) (closer : Lexeme) (stop : Nat) :
    (f.close closer stop).text =
      f.opener.text ++ (reconstruct f.children.reverse ++ closer.text) := by
  show (Lexeme.join none (f.opener :: f.children.reverse.map lexeme ++ [closer])).text = _
  rw [Lexeme.text_join, List.cons_append, List.flatMap_cons, List.flatMap_append,
    List.flatMap_map]
  simp only [List.flatMap_cons, List.flatMap_nil, List.append_nil]
  rfl

theorem text_giveUp (f : Frame) :
    f.giveUp.text = f.opener.text ++ reconstruct f.children.reverse := by
  show (Lexeme.join none (f.opener :: f.children.reverse.map lexeme)).text = _
  rw [Lexeme.text_join, List.flatMap_cons, List.flatMap_map]
  rfl

/-- A frame that is given up stops where its last child does, and so does its text. -/
theorem span_giveUp {f : Frame} (hopener : Text.size f.opener.text = 1)
    (h : Sits (f.start + 1) f.children.reverse) :
    f.giveUp.span = ⟨f.start, f.start + Text.size f.giveUp.text⟩ := by
  have hstop := stop_of_tiles h.tiles
  rw [List.getLast?_reverse] at hstop
  rw [text_giveUp, Text.size_append, hopener, ← Nat.add_assoc, ← hstop]
  obtain ⟨delimiter, start, opener, children⟩ := f
  cases children <;> rfl

end Frame

theorem Delimiter.size_opener (d : Delimiter) : Text.size [d.opener] = 1 := by cases d <;> rfl

theorem Delimiter.size_closer (d : Delimiter) : Text.size [d.closer] = 1 := by cases d <;> rfl

/-! ## Pieces that follow each other -/

/-- The piece stands at that offset; it is not empty, and that of a bracket is the bracket. -/
structure Piece.StandsAt (p : Piece) (pos : Nat) : Prop where
  span : p.span = ⟨pos, pos + Text.size p.lexeme.text⟩
  ne_nil : p.lexeme.text ≠ []
  opener : ∀ d, p.kind = .opener d → p.lexeme.text = [d.opener]
  closer : ∀ d, p.kind = .closer d → p.lexeme.text = [d.closer]

/-- The pieces follow each other from an offset on. -/
def Laid (pos : Nat) : List Piece → Prop
  | [] => True
  | p :: ps => p.StandsAt pos ∧ Laid (pos + Text.size p.lexeme.text) ps

def textOf (ps : List Piece) : Text := ps.flatMap (·.lexeme.text)

theorem textOf_cons (p : Piece) (ps : List Piece) :
    textOf (p :: ps) = p.lexeme.text ++ textOf ps := List.flatMap_cons

theorem textOf_append (ps qs : List Piece) : textOf (ps ++ qs) = textOf ps ++ textOf qs :=
  List.flatMap_append

theorem laid_append {pos : Nat} {ps qs : List Piece} :
    Laid pos (ps ++ qs) ↔ Laid pos ps ∧ Laid (pos + Text.size (textOf ps)) qs := by
  induction ps generalizing pos with
  | nil => exact (and_iff_right trivial).symm
  | cons p ps ih =>
    rw [List.cons_append, Laid, ih, Laid, textOf_cons, Text.size_append, Nat.add_assoc, and_assoc]

/-- The pieces that a scan cuts off follow each other. -/
theorem laid_of_layout {pos : Nat} {ps : List Piece} {cuts : List Cut}
    (h : ps.map Piece.detach = layout pos cuts)
    (hcuts : ∀ c ∈ cuts, c.Whole) : Laid pos ps ∧ textOf ps = cuts.flatMap Cut.text := by
  induction cuts generalizing pos ps with
  | nil =>
    obtain rfl : ps = [] := List.map_eq_nil_iff.1 h
    exact ⟨trivial, rfl⟩
  | cons c cuts ih =>
    cases ps with
    | nil => cases h
    | cons p ps =>
      obtain ⟨hp, hps⟩ := List.cons.inj h
      obtain ⟨kind, span, lexeme⟩ := p
      have hkind : kind = c.kind := congrArg Piece.kind hp
      have hspan : span = ⟨pos, pos + Text.size c.text⟩ := congrArg Piece.span hp
      have htext : lexeme.text = c.text := by
        have hlexeme := congrArg (fun p => p.lexeme.text) hp
        simpa only [Piece.detach, Lexeme.text_copied] using hlexeme
      obtain ⟨hne, hopener, hcloser⟩ := hcuts c List.mem_cons_self
      obtain ⟨hlaid, hrest⟩ := ih hps fun c hc => hcuts c (List.mem_cons_of_mem _ hc)
      rw [← htext] at hspan hne hopener hcloser hlaid
      rw [← hkind] at hopener hcloser
      refine ⟨⟨⟨hspan, hne, hopener, hcloser⟩, hlaid⟩, ?_⟩
      rw [textOf_cons, hrest, List.flatMap_cons, ← htext]

/-- The tree of an input is built of the pieces that the input is cut into. -/
theorem exists_build_lex (config : Config) (source : Text) :
    ∃ ps cuts, lex config source = Nest.build ps ∧
      Scans config true .normal source cuts ⟨.normal, [], none⟩ ∧
      ps.map Piece.detach = layout 0 cuts := by
  have fits : Mode.normal.Fits config source := trivial
  obtain ⟨cuts, hscan, hpieces, -⟩ := Scan.ofBuffer_scans config true 0 ⟨some 0, source⟩ fits
  have hend := hscan.eq_end_of_final
  rw [hend] at hscan
  exact ⟨_, cuts, rfl, hscan, hpieces⟩

/-! ## The tokens that are made of them -/

open Token

/-- Forests of the same pieces have the same text. -/
theorem Groups.reconstruct_eq {ps : List Piece} {ts : List Token} (h : Groups ps ts) :
    reconstruct ts = textOf ps := by
  induction h with
  | nil => rfl
  | leaf _ ih =>
    rw [reconstruct_cons, ih]
    rfl
  | unterminated _ ih =>
    rw [reconstruct_cons, ih]
    rfl
  | stray _ ih =>
    rw [reconstruct_cons, ih]
    rfl
  | block _ _ ihin ih =>
    rw [reconstruct_cons, Frame.text_close, List.reverse_reverse, ihin, ih, textOf_cons,
      textOf_append, textOf_cons, List.append_assoc, List.append_assoc]
  | unclosed _ _ ihin ih =>
    rw [reconstruct_cons, Frame.text_giveUp, List.reverse_reverse, ihin, ih, textOf_cons,
      textOf_append, List.append_assoc]

theorem Piece.StandsAt.size_opener {d : Delimiter} {s : Span} {l : Lexeme} {pos : Nat}
    (h : (⟨.opener d, s, l⟩ : Piece).StandsAt pos) : Text.size l.text = 1 := by
  have hl : l.text = [d.opener] := h.opener d rfl
  rw [hl, d.size_opener]

theorem Piece.StandsAt.start_eq {p : Piece} {pos : Nat} (h : p.StandsAt pos) :
    p.span.start = pos := by rw [h.span]

/-- What sits behind an opening bracket. -/
theorem Token.Sits.inside {d : Delimiter} {s : Span} {l : Lexeme} {pos : Nat} {ts : List Token}
    (hopener : (⟨.opener d, s, l⟩ : Piece).StandsAt pos) (h : Sits (pos + Text.size l.text) ts) :
    Sits (s.start + 1) ts.reverse.reverse := by
  have hstart : s.start = pos := hopener.start_eq
  rw [List.reverse_reverse, hstart, ← hopener.size_opener]
  exact h

/-- Tokens made of pieces that follow each other do so, too. -/
theorem Groups.sits {ps : List Piece} {ts : List Token} (h : Groups ps ts) {pos : Nat}
    (hlaid : Laid pos ps) : Sits pos ts := by
  induction h generalizing pos with
  | nil => trivial
  | leaf _ ih => exact ⟨hlaid.1.span, ih hlaid.2⟩
  | unterminated _ ih => exact ⟨hlaid.1.span, ih hlaid.2⟩
  | stray _ ih => exact ⟨hlaid.1.span, ih hlaid.2⟩
  | @block d s s' l l' inside ps children ts hin _ _ ih =>
    obtain ⟨hopener, hlaid⟩ := hlaid
    obtain ⟨-, hcloser, hrest⟩ := laid_append.1 hlaid
    have hspan : s = ⟨pos, _⟩ := hopener.span
    have hspan' : s' = ⟨_, _⟩ := hcloser.span
    have hsize : Text.size (Frame.close ⟨d, s.start, l, children.reverse⟩ l' s'.stop).text =
        Text.size l.text + Text.size (textOf inside) + Text.size l'.text := by
      rw [Frame.text_close, List.reverse_reverse, hin.reconstruct_eq, Text.size_append,
        Text.size_append, Nat.add_assoc]
    rw [Sits, hsize, ← Nat.add_assoc, ← Nat.add_assoc]
    refine ⟨?_, ih hrest⟩
    show (⟨s.start, s'.stop⟩ : Span) = _
    rw [hspan, hspan']
  | @unclosed d s l inside ps children ts hin _ ihin ih =>
    obtain ⟨hopener, hlaid⟩ := hlaid
    obtain ⟨hinside, hrest⟩ := laid_append.1 hlaid
    have hstart : s.start = pos := hopener.start_eq
    have hsize : Text.size (Frame.giveUp ⟨d, s.start, l, children.reverse⟩).text =
        Text.size l.text + Text.size (textOf inside) := by
      rw [Frame.text_giveUp, List.reverse_reverse, hin.reconstruct_eq, Text.size_append]
    have hspan := Frame.span_giveUp (f := ⟨d, s.start, l, children.reverse⟩) hopener.size_opener
      (Sits.inside hopener (ihin hinside))
    rw [Sits, hspan, hsize, hstart, ← Nat.add_assoc]
    exact ⟨rfl, ih hrest⟩

theorem framed_cons {u : Token} {ts : List Token} (hu : Framed u)
    (hinside : ∀ t, Occurs t u.children → Framed t) (hrest : ∀ t, Occurs t ts → Framed t) :
    ∀ t, Occurs t (u :: ts) → Framed t := by
  intro t ht
  rcases occurs_cons.1 ht with rfl | ht | ht
  · exact hu
  · exact hinside t ht
  · exact hrest t ht

theorem framed_close {f : Frame} {closer : Lexeme} {stop : Nat}
    (hopener : f.opener.text = [f.delimiter.opener]) (hcloser : closer.text = [f.delimiter.closer])
    (hsits : Sits (f.start + 1) f.children.reverse) : Framed (f.close closer stop) := by
  have htext : (f.close closer stop).text =
      f.delimiter.opener :: (reconstruct f.children.reverse ++ [f.delimiter.closer]) := by
    rw [Frame.text_close, hopener, hcloser]
    rfl
  refine ⟨?_, ?_, nofun, nofun, fun h => absurd rfl (h f.delimiter).1⟩
  · rw [htext]
    exact List.cons_ne_nil _ _
  · intro d hd
    cases hd
    exact ⟨htext, hsits⟩

theorem framed_giveUp {f : Frame} (hopener : f.opener.text = [f.delimiter.opener])
    (hsits : Sits (f.start + 1) f.children.reverse) : Framed f.giveUp := by
  have htext : f.giveUp.text = f.delimiter.opener :: reconstruct f.children.reverse := by
    rw [Frame.text_giveUp, hopener]
    rfl
  refine ⟨?_, nofun, ?_, nofun, fun h => absurd rfl (h f.delimiter).2⟩
  · rw [htext]
    exact List.cons_ne_nil _ _
  · intro d hd
    cases hd
    exact ⟨htext, hsits⟩

/-- At every depth the text of a token is that of its children with its own brackets. -/
theorem Groups.framed {ps : List Piece} {ts : List Token} (h : Groups ps ts) {pos : Nat}
    (hlaid : Laid pos ps) : ∀ t, Occurs t ts → Framed t := by
  have hnone : ∀ t, Occurs t [] → Framed t := fun t ht => absurd ht occurs_nil
  induction h generalizing pos with
  | nil => exact hnone
  | leaf _ ih =>
    obtain ⟨hp, hps⟩ := hlaid
    exact framed_cons ⟨hp.ne_nil, nofun, nofun, nofun, fun _ => rfl⟩ hnone (ih hps)
  | unterminated _ ih =>
    obtain ⟨hp, hps⟩ := hlaid
    exact framed_cons ⟨hp.ne_nil, nofun, nofun, nofun, fun _ => rfl⟩ hnone (ih hps)
  | @stray d s l ps ts _ ih =>
    obtain ⟨hp, hps⟩ := hlaid
    have hstray (e : Delimiter) (he : (group (.error (.stray d)) s l []).IsStray e) :
        l.text = [e.closer] := by
      cases he
      exact hp.closer d rfl
    exact framed_cons ⟨hp.ne_nil, nofun, nofun, hstray, fun _ => rfl⟩ hnone (ih hps)
  | @block d s s' l l' inside ps children ts hin _ ihin ih =>
    obtain ⟨hopener, hlaid⟩ := hlaid
    obtain ⟨hinside, hcloser, hrest⟩ := laid_append.1 hlaid
    have hsits := Sits.inside hopener (hin.sits hinside)
    have hblock : Framed (Frame.close ⟨d, s.start, l, children.reverse⟩ l' s'.stop) :=
      framed_close (hopener.opener d rfl) (hcloser.closer d rfl) hsits
    refine framed_cons hblock ?_ (ih hrest)
    rw [Frame.children_close]
    exact ihin hinside
  | @unclosed d s l inside ps children ts hin _ ihin ih =>
    obtain ⟨hopener, hlaid⟩ := hlaid
    obtain ⟨hinside, hrest⟩ := laid_append.1 hlaid
    have hsits := Sits.inside hopener (hin.sits hinside)
    have hunclosed : Framed (Frame.giveUp ⟨d, s.start, l, children.reverse⟩) :=
      framed_giveUp (hopener.opener d rfl) hsits
    refine framed_cons hunclosed ?_ (ih hrest)
    rw [Frame.children_giveUp]
    exact ihin hinside

/-! ## Places in the input -/

theorem Token.Sits.exists_split {ts : List Token} {before after : Text}
    (h : Sits (Text.size before) ts) {t : Token} (ht : t ∈ ts) :
    ∃ left right, before ++ (reconstruct ts ++ after) = left ++ (t.text ++ right) ∧
      t.span = ⟨Text.size left, Text.size left + Text.size t.text⟩ := by
  induction ts generalizing before with
  | nil => cases ht
  | cons u ts ih =>
    obtain ⟨hu, hts⟩ := h
    rw [reconstruct_cons, List.append_assoc]
    rcases List.mem_cons.1 ht with rfl | ht
    · exact ⟨before, reconstruct ts ++ after, rfl, hu⟩
    · rw [← List.append_assoc]
      rw [← Text.size_append] at hts
      exact ih hts ht

/-- Each token of the tree stands in the input with its text. -/
theorem exists_split {t : Token} {ts : List Token} (ht : Occurs t ts) {source before after : Text}
    (hsource : source = before ++ (reconstruct ts ++ after)) (hsits : Sits (Text.size before) ts)
    (hframed : ∀ t, Occurs t ts → Framed t) :
    ∃ left right, source = left ++ (t.text ++ right) ∧
      t.span = ⟨Text.size left, Text.size left + Text.size t.text⟩ := by
  induction ht generalizing before after with
  | here h =>
    obtain ⟨left, right, hsplit, hspan⟩ := hsits.exists_split h
    exact ⟨left, right, hsource.trans hsplit, hspan⟩
  | @inside u ts hu ht ih =>
    obtain ⟨left, right, hsplit, hspan⟩ := hsits.exists_split hu
    have hstart : u.span.start = Text.size left := congrArg Span.start hspan
    have hinside (t : Token) (ht : Occurs t u.children) : Framed t := hframed t (.inside hu ht)
    have hu' := hframed u (.here hu)
    -- the children of `u` stand behind its opening bracket
    have hchildren {d : Delimiter} {close : Text}
        (htext : u.text = d.opener :: (reconstruct u.children ++ close))
        (h : Sits (u.span.start + 1) u.children) :
        ∃ left right, source = left ++ (t.text ++ right) ∧
          t.span = ⟨Text.size left, Text.size left + Text.size t.text⟩ := by
      have hbehind : source =
          (left ++ [d.opener]) ++ (reconstruct u.children ++ (close ++ right)) := by
        rw [hsource, hsplit, htext]
        simp only [List.cons_append, List.append_assoc, List.nil_append]
      have hsits : Sits (Text.size (left ++ [d.opener])) u.children := by
        rw [Text.size_append, d.size_opener, ← hstart]
        exact h
      exact ih hbehind hsits hinside
    by_cases hblock : ∃ d, u.IsBlock d
    · obtain ⟨d, hd⟩ := hblock
      obtain ⟨htext, h⟩ := hu'.block d hd
      exact hchildren htext h
    · by_cases hunclosed : ∃ d, u.IsUnclosed d
      · obtain ⟨d, hd⟩ := hunclosed
        obtain ⟨htext, h⟩ := hu'.unclosed d hd
        rw [← List.append_nil (reconstruct u.children)] at htext
        exact hchildren htext h
      · have hnil := hu'.childless fun d => ⟨fun h => hblock ⟨d, h⟩, fun h => hunclosed ⟨d, h⟩⟩
        rw [hnil] at ht
        exact absurd ht occurs_nil

theorem unwrapped?_eq {t : Token} {a b : Char} {inner : Text} (ha : Text.size [a] = 1)
    (hb : Text.size [b] = 1) (h : t.text = a :: (inner ++ [b])) : t.unwrapped? = some inner := by
  have htext : t.lexeme.text = [a] ++ (inner ++ [b]) := h
  have hlength : t.lexeme.length = 1 + Text.size inner + 1 := by
    rw [← Lexeme.size_text, htext, Text.size_append, Text.size_append, ha, hb, Nat.add_assoc]
  rw [Token.unwrapped?, Lexeme.slice?_eq, Text.slice?_eq_some_iff]
  exact ⟨[a], [b], htext, ha, by rw [hlength, Nat.add_sub_cancel]⟩

theorem innerText?_block {t : Token} {d : Delimiter} {inner : Text} (ht : t.IsBlock d)
    (h : t.text = d.opener :: (inner ++ [d.closer])) : t.innerText? = some inner := by
  cases t with
  | leaf k s l => cases ht
  | group k s l ts =>
    cases ht
    exact unwrapped?_eq d.size_opener d.size_closer h

theorem Token.Framed.placed {source left right : Text} {t : Token} (h : Framed t)
    (hsource : source = left ++ (t.text ++ right))
    (hspan : t.span = ⟨Text.size left, Text.size left + Text.size t.text⟩) : Placed source t := by
  have hstart : t.span.start = Text.size left := congrArg Span.start hspan
  have hstop : t.span.stop = t.span.start + Text.size t.text := by rw [hspan]
  refine ⟨?_, h.ne_nil, ?_, ?_, ?_, h.childless⟩
  · exact Text.slice?_eq_some_iff.2 ⟨left, right, hsource, hstart.symm, hstop.symm⟩
  · intro d hd
    obtain ⟨htext, hsits⟩ := h.block d hd
    have hsize : Text.size t.text = 1 + Text.size (reconstruct t.children) + 1 := by
      rw [htext, ← List.singleton_append, Text.size_append, Text.size_append, d.size_opener,
        d.size_closer, Nat.add_assoc]
    have htiles := hsits.tiles
    rw [Nat.add_assoc, show t.span.start + (1 + Text.size (reconstruct t.children)) =
      t.span.stop - 1 by omega] at htiles
    exact ⟨htext, htiles, innerText?_block hd htext⟩
  · intro d hd
    obtain ⟨htext, hsits⟩ := h.unclosed d hd
    have hsize : Text.size t.text = 1 + Text.size (reconstruct t.children) := by
      rw [htext, ← List.singleton_append, Text.size_append, d.size_opener]
    have htiles := hsits.tiles
    rw [Nat.add_assoc, ← hsize, ← hstop] at htiles
    exact ⟨htext, htiles⟩
  · intro d hd
    refine ⟨h.stray d hd, h.childless fun e => ⟨?_, ?_⟩⟩
    · exact fun he => nomatch hd.symm.trans he
    · exact fun he => nomatch hd.symm.trans he

/-- The tree of an input is the input: its tokens put together are the input, they follow each other
from its start to its end, and each token at every depth has the text that stands at its span. -/
theorem lex_tiles (config : Config) (source : Text) :
    reconstruct (lex config source) = source ∧ Tiles 0 (Text.size source) (lex config source) ∧
      ∀ t, Occurs t (lex config source) → Placed source t := by
  have fits : Mode.normal.Fits config source := trivial
  obtain ⟨cuts, hscan, hpieces, -⟩ := Scan.ofBuffer_scans config true 0 ⟨some 0, source⟩ fits
  obtain ⟨hlaid, htext⟩ := laid_of_layout hpieces fun c hc => hscan.whole fits hc
  have hsource : textOf (Scan.ofBuffer config true 0 .normal ⟨some 0, source⟩).pieces = source := by
    have hwhole : source = cuts.flatMap Cut.text ++ _ := hscan.text_eq
    rw [hscan.eq_end_of_final, List.append_nil] at hwhole
    rw [htext, ← hwhole]
  have hgroups : Groups (Scan.ofBuffer config true 0 .normal ⟨some 0, source⟩).pieces
      (lex config source) := (Nest.groups_build _).1
  have hreconstruct := hgroups.reconstruct_eq.trans hsource
  have hsits := hgroups.sits hlaid
  refine ⟨hreconstruct, ?_, ?_⟩
  · have htiles := hsits.tiles
    rw [hreconstruct, Nat.zero_add] at htiles
    exact htiles
  · intro t ht
    have hwhole : source = [] ++ (reconstruct (lex config source) ++ []) := by
      rw [hreconstruct, List.append_nil, List.nil_append]
    obtain ⟨left, right, hsplit, hspan⟩ := exists_split ht hwhole hsits (hgroups.framed hlaid)
    exact (hgroups.framed hlaid t ht).placed hsplit hspan

end TokenTree
