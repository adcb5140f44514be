import Mathlib.Data.List.Chain
import TokenTree.Proofs.Segment

/-!
# Texts divided into segments

There is one way to divide a text into pieces that the classes allow, with no run beside another run
of its kind, and that is into its segments (`SymbolSet.segmentation_iff`). A text that is added
leaves the segments before it as they are, and is divided as it would be alone, exactly if the last
of them may not extend (`SymbolSet.segments_append_iff`).

Both are read off `SymbolSet.Munches`, which divides a text by taking its first segment again and
again, and knows nothing of offsets: a segment depends on the text from its start on only.
-/

namespace TokenTree

theorem Text.size_le_append (s t : Text) : size s ≤ size (s ++ t) := by
  rw [size_append]
  exact Nat.le_add_right _ _

namespace Segmenter

theorem offset_zero {pos : Nat} (h : pos ≤ maxOffset) : offset 0 pos = pos := by
  simp only [offset]
  omega

theorem offset_add (base n pos : Nat) : offset base (n + pos) = offset n (offset base pos) := by
  simp only [offset]
  omega

end Segmenter

namespace Segment

/-- The segments stand one after the other from `start` to `stop`, and none is empty. -/
def Tiles (start stop : Nat) : List Segment → Prop
  | [] => start = stop
  | s :: ss => s.start = start ∧ 0 < s.length ∧ Tiles s.stop stop ss

/-- The segment, its start put behind a text of `n` bytes. As with all offsets the greatest one is
not exceeded. -/
def shift (n : Nat) (s : Segment) : Segment := { s with start := Segmenter.offset n s.start }

/-- The segments that pieces are which stand one after the other from byte `pos` on, in a text whose
first byte has offset `base`. -/
def layout (base pos : Nat) : List (CharClass × Text) → List Segment
  | [] => []
  | (cls, piece) :: ps =>
    ⟨cls, Segmenter.offset base pos, Text.size piece⟩ :: layout base (pos + Text.size piece) ps

theorem length_layout (base pos : Nat) (ps : List (CharClass × Text)) :
    (layout base pos ps).length = ps.length := by
  induction ps generalizing pos with
  | nil => rfl
  | cons p ps ih => rw [layout, List.length_cons, ih, List.length_cons]

theorem layout_append (base pos : Nat) (ps qs : List (CharClass × Text)) :
    layout base pos (ps ++ qs) =
      layout base pos ps ++ layout base (pos + Text.size (ps.flatMap Prod.snd)) qs := by
  induction ps generalizing pos with
  | nil => rfl
  | cons p ps ih =>
    rw [List.cons_append, layout, ih, layout, List.cons_append, List.flatMap_cons, Text.size_append,
      Nat.add_assoc]

theorem layout_add (base n pos : Nat) (ps : List (CharClass × Text)) :
    layout base (n + pos) ps = (layout base pos ps).map (shift n) := by
  induction ps generalizing pos with
  | nil => rfl
  | cons p ps ih =>
    rw [layout, layout, List.map_cons, Nat.add_assoc, ih, shift, Segmenter.offset_add]

/-- A text that starts at a later offset has the same segments there. -/
theorem layout_base (base n pos : Nat) (ps : List (CharClass × Text)) :
    layout (base + n) pos ps = layout base (n + pos) ps := by
  induction ps generalizing pos with
  | nil => rfl
  | cons p ps ih =>
    rw [layout, layout, ih, Segmenter.offset, Segmenter.offset, Nat.add_assoc, Nat.add_assoc]

end Segment

namespace SymbolSet

variable {symbols : SymbolSet}

/-- The characters that a segment of each class can have, before these: an atom, a line break that
takes a line feed with it, a symbol, or characters of one run. -/
def Forms (symbols : SymbolSet) (piece after : Text) : CharClass → Prop
  | .atom a => piece = [a.char]
  | .run k => piece ≠ [] ∧ ∀ c ∈ piece, symbols.classOf c = .run k
  | .newline => piece = ['\n'] ∨ piece = ['\r', '\n'] ∨ piece = ['\r'] ∧ after.head? ≠ some '\n'
  | .symbol => ∃ c, piece = [c] ∧ symbols.classOf c = .symbol

/-- The segments are pieces of the text from byte `start` on, and no run stands beside another run
of its kind. -/
structure Segmentation (symbols : SymbolSet) (text : Text) (start : Nat) (ss : List Segment) :
    Prop where
  tiles : Segment.Tiles start (Text.size text) ss
  formed : ∀ s ∈ ss, ∃ before piece after, text = before ++ (piece ++ after) ∧
    Text.size before = s.start ∧ Text.size piece = s.length ∧ symbols.Forms piece after s.cls
  maximal : ss.IsChain fun s s' => ∀ k, s.cls = .run k → s'.cls ≠ .run k

/-! ## One segment -/

theorem classOf_char (symbols : SymbolSet) (a : Atom) : symbols.classOf a.char = .atom a := by
  rw [classOf, Atom.ofChar?_char]

/-- The characters of a segment are of its class, as its first one shows. -/
theorem Forms.classOf_head {piece after : Text} {cls : CharClass}
    (h : symbols.Forms piece after cls) : ∃ c r, piece = c :: r ∧ symbols.classOf c = cls := by
  cases cls with
  | atom a => exact ⟨a.char, [], h, symbols.classOf_char a⟩
  | run k =>
    obtain ⟨hne, hall⟩ := h
    obtain ⟨c, r, rfl⟩ := List.exists_cons_of_ne_nil hne
    exact ⟨c, r, rfl, hall c List.mem_cons_self⟩
  | newline =>
    rcases h with rfl | rfl | ⟨rfl, -⟩
    · exact ⟨'\n', [], rfl, rfl⟩
    · exact ⟨'\r', ['\n'], rfl, rfl⟩
    · exact ⟨'\r', [], rfl, rfl⟩
  | symbol =>
    obtain ⟨c, rfl, hc⟩ := h
    exact ⟨c, [], rfl, hc⟩

theorem forms_of_munch {t piece after : Text} {cls : CharClass}
    (h : symbols.munch t = some (cls, piece, after)) : symbols.Forms piece after cls := by
  cases cls with
  | atom a => exact munch_atom h
  | run k => exact ⟨munch_ne_nil symbols h, (munch_maximal h).1⟩
  | newline => exact munch_break h
  | symbol => exact munch_symbol h

/-- The first segment of a text is the one that its class allows there, and that is as long as it
can be. -/
theorem munch_eq_some_iff {t piece after : Text} {cls : CharClass} :
    symbols.munch t = some (cls, piece, after) ↔ t = piece ++ after ∧
      symbols.Forms piece after cls ∧
        ∀ k, cls = .run k → ∀ c ∈ after.head?, symbols.classOf c ≠ .run k := by
  constructor
  · intro h
    refine ⟨munch_append symbols h, forms_of_munch h, ?_⟩
    rintro k rfl
    exact (munch_maximal h).2
  · rintro ⟨rfl, hforms, hmaximal⟩
    cases cls with
    | atom a =>
      obtain rfl : piece = [a.char] := hforms
      have hc := symbols.classOf_char a
      rw [List.singleton_append, munch_single (by simp [hc]) (by simp [hc]), hc]
    | run k =>
      obtain ⟨hne, hall⟩ := hforms
      obtain ⟨c, r, rfl⟩ := List.exists_cons_of_ne_nil hne
      obtain ⟨hc, hr⟩ := List.forall_mem_cons.1 hall
      have hr : ∀ d ∈ r, decide (symbols.classOf d = .run k) = true := fun d hd =>
        decide_eq_true (hr d hd)
      rw [List.cons_append, munch_run hc, List.takeWhile_append_of_pos hr,
        List.dropWhile_append_of_pos hr]
      cases after with
      | nil => simp
      | cons d after =>
        have hd : symbols.classOf d ≠ .run k := hmaximal k rfl d rfl
        simp [hd]
    | newline =>
      rcases hforms with rfl | rfl | ⟨rfl, hafter⟩
      · exact munch_newline rfl (by simp)
      · exact munch_crlf after
      · exact munch_newline rfl fun h => hafter h.2
    | symbol =>
      obtain ⟨c, rfl, hc⟩ := hforms
      rw [List.singleton_append, munch_single (by simp [hc]) (by simp [hc]), hc]

/-! ## One segment after the other -/

/-- The text is divided by taking its first segment again and again. -/
inductive Munches (symbols : SymbolSet) : Text → List (CharClass × Text) → Prop
  | nil : Munches symbols [] []
  | cons {t piece after : Text} {cls : CharClass} {ps : List (CharClass × Text)}
      (hm : symbols.munch t = some (cls, piece, after)) (hrest : Munches symbols after ps) :
      Munches symbols t ((cls, piece) :: ps)

/-- Every text is divided so. -/
theorem exists_munches (symbols : SymbolSet) (t : Text) : ∃ ps, Munches symbols t ps := by
  induction hn : t.length using Nat.strong_induction_on generalizing t with
  | h n ih =>
    subst hn
    cases t with
    | nil => exact ⟨[], .nil⟩
    | cons c r =>
      obtain ⟨piece, after, hm⟩ := symbols.exists_munch c r
      obtain ⟨ps, hps⟩ := ih _ (munch_length_lt symbols hm) after rfl
      exact ⟨_, .cons hm hps⟩

namespace Munches

variable {t : Text} {ps : List (CharClass × Text)}

theorem text_eq (h : Munches symbols t ps) : t = ps.flatMap Prod.snd := by
  induction h with
  | nil => rfl
  | cons hm _ ih => rw [munch_append symbols hm, List.flatMap_cons, ← ih]

/-- The first segment of a text that is divided so, before the text of the others. -/
theorem munch_eq {piece : Text} {cls : CharClass} (h : Munches symbols t ((cls, piece) :: ps)) :
    symbols.munch t = some (cls, piece, ps.flatMap Prod.snd) := by
  cases h with
  | cons hm hrest => rw [hm, hrest.text_eq]

/-- The text that is left behind some of its segments is divided by the others. -/
theorem of_append {qs : List (CharClass × Text)} (h : Munches symbols t (ps ++ qs)) :
    Munches symbols (qs.flatMap Prod.snd) qs := by
  induction ps generalizing t with
  | nil => exact h.text_eq ▸ h
  | cons p ps ih =>
    cases h with
    | cons _ hrest => exact ih hrest

theorem collect_eq (h : Munches symbols t ps) (seen : List Segment) (text : Text)
    (base pos : Nat) :
    Segmenter.collect seen ⟨symbols, text, base, pos, t⟩ =
      seen.reverse ++ Segment.layout base pos ps := by
  induction h generalizing seen pos with
  | nil =>
    rw [Segmenter.collect]
    simp [Segmenter.next?, munch, Segment.layout]
  | @cons t piece after cls ps hm _ ih =>
    have hnext : Segmenter.next? ⟨symbols, text, base, pos, t⟩ =
        some (⟨cls, Segmenter.offset base pos, Text.size piece⟩,
          ⟨symbols, text, base, pos + Text.size piece, after⟩) := by
      simp only [Segmenter.next?, hm, Option.map_some]
    rw [Segmenter.collect]
    split
    · next hnone => cases hnone.symm.trans hnext
    · next hsome =>
      cases hsome.symm.trans hnext
      rw [ih, List.reverse_cons, List.append_assoc]
      rfl

theorem segments_eq (h : Munches symbols t ps) (base : Nat) :
    symbols.segments base t = Segment.layout base 0 ps := h.collect_eq [] t base 0

/-! ## The only way to divide a text -/

/-- Two runs that stand side by side are of two kinds. -/
theorem head_apart {k : Run} (h : Munches symbols t ps)
    (hstop : ∀ c ∈ t.head?, symbols.classOf c ≠ .run k) : ∀ p ∈ ps.head?, p.1 ≠ .run k := by
  cases h with
  | nil => exact nofun
  | @cons t piece after cls ps hm _ =>
    rintro _ ⟨⟩
    obtain ⟨c, r, rfl, hc⟩ := (forms_of_munch hm).classOf_head
    rw [munch_append symbols hm] at hstop
    rw [← hc]
    exact hstop c rfl

/-- The segments of the rest of a text divide it. -/
theorem segmentation (h : Munches symbols t ps) (before : Text)
    (hsize : Text.size (before ++ t) ≤ maxOffset) :
    symbols.Segmentation (before ++ t) (Text.size before)
      (Segment.layout 0 (Text.size before) ps) := by
  induction h generalizing before with
  | nil => exact ⟨by simp [Segment.layout, Segment.Tiles], nofun, .nil⟩
  | @cons t piece after cls ps hm hrest ih =>
    have hfits := Nat.le_trans (Text.size_le_append before t) hsize
    obtain rfl := munch_append symbols hm
    rw [← List.append_assoc] at hsize ⊢
    obtain ⟨tiles, formed, maximal⟩ := ih (before ++ piece) hsize
    have hpos := Text.size_pos (munch_ne_nil symbols hm)
    rw [Text.size_append] at tiles formed maximal
    rw [Segment.layout, Segmenter.offset_zero hfits]
    refine ⟨⟨rfl, hpos, tiles⟩, List.forall_mem_cons.2 ⟨?_, formed⟩, ?_⟩
    · exact ⟨before, piece, after, List.append_assoc _ _ _, rfl, rfl, forms_of_munch hm⟩
    · refine List.isChain_cons.2 ⟨fun s hs k hk => ?_, maximal⟩
      -- the head of the rest is a piece that starts with the character at which this one stops
      have hk : cls = .run k := hk
      subst hk
      cases hrest with
      | nil => cases hs
      | cons hm' hrest' =>
        cases hs
        exact head_apart (.cons hm' hrest') (munch_maximal hm).2 _ rfl

end Munches

/-- What divides a text that is not empty starts with its first segment. -/
theorem Segmentation.munch {before t : Text} {s : Segment} {ss : List Segment}
    (h : symbols.Segmentation (before ++ t) (Text.size before) (s :: ss)) :
    ∃ piece after, symbols.munch t = some (s.cls, piece, after) ∧
      s = ⟨s.cls, Text.size before, Text.size piece⟩ ∧
      symbols.Segmentation ((before ++ piece) ++ after) (Text.size (before ++ piece)) ss := by
  obtain ⟨⟨hstart, -, tiles⟩, formed, maximal⟩ := h
  obtain ⟨⟨before', piece, after, ht, hbefore, hpiece, hforms⟩, formed⟩ :=
    List.forall_mem_cons.1 formed
  obtain ⟨rfl, rfl⟩ := Text.append_inj_of_size ht (hstart.symm.trans hbefore.symm)
  obtain ⟨hnext, maximal⟩ := List.isChain_cons.1 maximal
  have hstop : s.stop = Text.size (before ++ piece) := by
    rw [Segment.stop, Text.size_append]
    omega
  rw [hstop] at tiles
  rw [← List.append_assoc] at tiles formed
  refine ⟨piece, after, munch_eq_some_iff.2 ⟨rfl, hforms, fun k hk c hc => ?_⟩, ?_,
    tiles, formed, maximal⟩
  · -- the character behind a run is the first one of the next segment
    cases ss with
    | nil =>
      have hend : Text.size (before ++ piece) = Text.size ((before ++ piece) ++ after) := tiles
      cases after with
      | nil => cases hc
      | cons d after =>
        have hpos := Text.size_pos (List.cons_ne_nil d after)
        rw [Text.size_append (before ++ piece)] at hend
        omega
    | cons s' ss =>
      obtain ⟨before', piece', after', ht', hbefore', -, hforms'⟩ := formed s' List.mem_cons_self
      obtain ⟨-, rfl⟩ := Text.append_inj_of_size ht' (tiles.1.symm.trans hbefore'.symm)
      obtain ⟨d, r, rfl, hd⟩ := hforms'.classOf_head
      cases hc
      rw [hd]
      exact hnext s' rfl k hk
  · obtain ⟨cls, start, length⟩ := s
    exact congrArg₂ (Segment.mk cls) hstart hpiece.symm

/-- What divides the rest of a text is its segments. -/
theorem Munches.eq_layout {t : Text} {ps : List (CharClass × Text)} (hps : Munches symbols t ps)
    {ss : List Segment} (before : Text)
    (h : symbols.Segmentation (before ++ t) (Text.size before) ss)
    (hsize : Text.size (before ++ t) ≤ maxOffset) :
    ss = Segment.layout 0 (Text.size before) ps := by
  induction hps generalizing before ss with
  | nil =>
    cases ss with
    | nil => rfl
    | cons s ss =>
      obtain ⟨piece, after, hm, -⟩ := h.munch
      cases hm
  | @cons t piece after cls ps hm hrest ih =>
    cases ss with
    | nil =>
      have hend : Text.size before = Text.size (before ++ t) := h.tiles
      have hpos : 0 < Text.size t := Text.size_pos (by rintro rfl; cases hm)
      rw [Text.size_append] at hend
      omega
    | cons s ss =>
      obtain ⟨piece', after', hm', hs, hrest'⟩ := h.munch
      cases hm.symm.trans hm'
      have hfits := Nat.le_trans (Text.size_le_append before t) hsize
      rw [munch_append symbols hm, ← List.append_assoc] at hsize
      rw [hs, ih (before ++ piece) hrest' hsize, Segment.layout, Segmenter.offset_zero hfits,
        Text.size_append]

/-- The segments of a text are the one way to divide it into pieces that the classes allow, with no
run beside another run of its kind. -/
theorem segmentation_iff {text : Text} (hsize : Text.size text ≤ maxOffset) (ss : List Segment) :
    symbols.Segmentation text 0 ss ↔ ss = symbols.segments 0 text := by
  obtain ⟨ps, hps⟩ := exists_munches symbols text
  rw [hps.segments_eq]
  constructor
  · intro h
    exact hps.eq_layout [] h hsize
  · rintro rfl
    exact hps.segmentation [] hsize

/-- Digits that are configured as symbols, and a carriage return with its line feed. -/
theorem segmentation_iff_digits :
    let symbols := SymbolSet.ofList ['1', '+']
    let text : Text := ['1', '2', '\r', '\n', '+', '\r']
    Text.size text ≤ maxOffset ∧ symbols.Segmentation text 0
      [⟨.run .digits, 0, 2⟩, ⟨.newline, 2, 2⟩, ⟨.symbol, 4, 1⟩, ⟨.newline, 5, 1⟩] := by
  refine ⟨by decide, (segmentation_iff (by decide) _).2 ?_⟩
  decide +kernel

/-! ## Texts that go on -/

/-- All segments of a text but its last one are settled: what the last one makes of its text with
more behind it follows them. -/
theorem Munches.exists_last {t : Text} {ps : List (CharClass × Text)} (h : Munches symbols t ps)
    (hne : t ≠ []) :
    ∃ first cls piece, ps = first ++ [(cls, piece)] ∧ symbols.munch piece = some (cls, piece, []) ∧
      ∀ more qs, Munches symbols (piece ++ more) qs →
        Munches symbols (t ++ more) (first ++ qs) := by
  induction h with
  | nil => exact absurd rfl hne
  | @cons t piece after cls ps hm hrest ih =>
    cases after with
    | nil =>
      obtain rfl : t = piece := (munch_append symbols hm).trans (List.append_nil _)
      cases hrest with
      | nil => exact ⟨[], cls, t, rfl, hm, fun _ _ hqs => hqs⟩
      | cons hm' _ => cases hm'
    | cons c after =>
      obtain ⟨first, cls', piece', rfl, hm', hmore⟩ := ih (List.cons_ne_nil c after)
      refine ⟨(cls, piece) :: first, cls', piece', rfl, hm', fun more qs hqs => ?_⟩
      exact .cons (munch_append_of_settled hm rfl more) (hmore more qs hqs)

/-- A segment that may extend is longer in some longer text. -/
theorem exists_munch_longer {piece : Text} {cls : CharClass}
    (hm : symbols.munch piece = some (cls, piece, [])) (h : mayExtend cls piece [] = true) :
    ∃ more, more ≠ [] ∧ symbols.munch (piece ++ more) = some (cls, piece ++ more, []) := by
  have h : cls.isRun = true ∨ piece = ['\r'] := by simpa [mayExtend] using h
  rcases h with hrun | rfl
  · cases cls with
    | run k => exact ⟨piece, munch_ne_nil symbols hm, munch_run_append hm hm⟩
    | _ => cases hrun
  · cases hm
    exact ⟨['\n'], List.cons_ne_nil _ _, munch_crlf []⟩

/-- The last segment may extend if its characters may. -/
theorem mayExtend_layout {first : List (CharClass × Text)} {cls : CharClass} {piece : Text}
    (hm : symbols.munch piece = some (cls, piece, []))
    (hsize : Text.size (first.flatMap Prod.snd ++ piece) ≤ maxOffset) :
    (Segmenter.ofText symbols 0 (first.flatMap Prod.snd ++ piece)).mayExtend
        ⟨cls, Segmenter.offset 0 (Text.size (first.flatMap Prod.snd)), Text.size piece⟩ =
      mayExtend cls piece [] := by
  have hfits := Nat.le_trans (Text.size_le_append (first.flatMap Prod.snd) piece) hsize
  have hlast : (first.flatMap Prod.snd ++ piece).getLast? = piece.getLast? :=
    List.getLast?_append_of_ne_nil _ (munch_ne_nil symbols hm)
  simp [Segmenter.mayExtend, Segmenter.ofText, Segment.stop, Segmenter.offset_zero hfits, hlast,
    lone_return hm, mayExtend]

/-- Text that is added leaves all segments as they are, and is divided as it would be alone, exactly
if the last segment before it may not extend. -/
theorem segments_append_iff {a : Text} (hsize : Text.size a ≤ maxOffset) :
    (∀ b, symbols.segments 0 (a ++ b) =
        symbols.segments 0 a ++ (symbols.segments 0 b).map (Segment.shift (Text.size a))) ↔
      a = [] ∨ ∃ s, (symbols.segments 0 a).getLast? = some s ∧
        (Segmenter.ofText symbols 0 a).mayExtend s = false := by
  obtain ⟨ps, hps⟩ := exists_munches symbols a
  have hjoin {b : Text} {qs : List (CharClass × Text)} (hqs : Munches symbols b qs)
      (h : Munches symbols (a ++ b) (ps ++ qs)) : symbols.segments 0 (a ++ b) =
        symbols.segments 0 a ++ (symbols.segments 0 b).map (Segment.shift (Text.size a)) := by
    rw [h.segments_eq, hps.segments_eq, hqs.segments_eq, Segment.layout_append, ← hps.text_eq,
      Nat.zero_add, ← Segment.layout_add, Nat.add_zero]
  by_cases hne : a = []
  · subst hne
    cases hps with
    | nil =>
      refine iff_of_true (fun b => ?_) (Or.inl rfl)
      obtain ⟨qs, hqs⟩ := exists_munches symbols b
      exact hjoin hqs hqs
    | cons hm _ => cases hm
  · obtain ⟨first, cls, piece, rfl, hm, hmore⟩ := hps.exists_last hne
    have ha : a = first.flatMap Prod.snd ++ piece := by
      rw [hps.text_eq, List.flatMap_append, List.flatMap_singleton]
    have hlast : (symbols.segments 0 a).getLast? = some
        ⟨cls, Segmenter.offset 0 (Text.size (first.flatMap Prod.snd)), Text.size piece⟩ := by
      rw [hps.segments_eq, Segment.layout_append, Nat.zero_add]
      exact List.getLast?_concat
    rw [hlast]
    simp only [hne, Option.some.injEq, exists_eq_left', false_or]
    rw [ha] at hsize
    rw [ha, mayExtend_layout hm hsize, ← ha]
    constructor
    · intro h
      by_contra hextends
      obtain ⟨b, hb, hlonger⟩ := exists_munch_longer hm (by simpa using hextends)
      obtain ⟨qs, hqs⟩ := exists_munches symbols b
      -- the longer segment takes all of the text added, so that one segment is missing
      have hlonger := hmore b _ (.cons hlonger .nil)
      have hlength := congrArg List.length (h b)
      rw [hlonger.segments_eq, hps.segments_eq, hqs.segments_eq] at hlength
      simp only [Segment.length_layout, List.length_append, List.length_map] at hlength
      cases hqs with
      | nil => exact hb rfl
      | cons _ _ =>
        simp only [List.length_cons, List.length_nil] at hlength
        omega
    · intro hsettled b
      obtain ⟨qs, hqs⟩ := exists_munches symbols b
      refine hjoin hqs ?_
      rw [List.append_assoc]
      exact hmore b _ (.cons (munch_append_of_settled hm hsettled b) hqs)

/-- A carriage return may get a line feed; when it has one, nothing joins the two. -/
theorem segments_append_iff_digits :
    let symbols := SymbolSet.empty
    (Text.size ['a', '\r'] ≤ maxOffset ∧
      ¬ ∀ b, symbols.segments 0 (['a', '\r'] ++ b) = symbols.segments 0 ['a', '\r'] ++
        (symbols.segments 0 b).map (Segment.shift 2)) ∧
    (Text.size ['1', '\r', '\n'] ≤ maxOffset ∧
      ∀ b, symbols.segments 0 (['1', '\r', '\n'] ++ b) = symbols.segments 0 ['1', '\r', '\n'] ++
        (symbols.segments 0 b).map (Segment.shift 3)) := by
  refine ⟨⟨by decide, fun h => ?_⟩, by decide, ?_⟩
  · have hlast := (segments_append_iff (by decide)).1 h
    revert hlast
    decide +kernel
  · refine (segments_append_iff (by decide)).2 (Or.inr ⟨⟨.newline, 1, 2⟩, ?_, ?_⟩)
    · decide +kernel
    · decide +kernel

end SymbolSet

end TokenTree
