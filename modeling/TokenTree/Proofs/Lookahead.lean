import TokenTree.Proofs.Segmentation
import TokenTree.Segment.Lookahead

/-!
# A lookahead is a position

Whoever looks ahead sees the segments of the text from the position on, and does not move
(`Lookahead.sees_ahead`). That some of them are kept in front of a segmenter that has gone past them
cannot be told: what is kept and what the segmenter has still to give are together all segments from
the position on (`Lookahead.reading`), and looking ahead, with or without success, only moves the
border between the two (`Lookahead.fill_reading`).
-/

namespace TokenTree

open SymbolSet (Munches)

namespace Lookahead

/-- What can be asked of a lookahead. -/
inductive Call where
  /-- The segment after `k` others. -/
  | peek (k : Nat)
  /-- To go on at byte `pos`. -/
  | seek (pos : Nat)

/-- The lookahead after calls; none if a position that was sought is not between characters. -/
def after? (l : Lookahead) : List Call → Option Lookahead
  | [] => some l
  | .peek k :: calls => (l.peek k).2.after? calls
  | .seek pos :: calls =>
    match l.seek? pos with
    | some l => l.after? calls
    | none => none

/-- The position that was sought last, or `pos` if there was none. -/
def sought (pos : Nat) : List Call → Nat
  | [] => pos
  | .peek _ :: calls => sought pos calls
  | .seek pos :: calls => sought pos calls

/-- The lookahead behind `before` that has looked at the segments `ps`, with `qs` behind them. -/
def reading (symbols : SymbolSet) (base : Nat) (before : Text) (ps qs : List (CharClass × Text)) :
    Lookahead where
  ahead := Segment.layout base (Text.size before) ps
  source :=
    { symbols := symbols
      text := before ++ (ps ++ qs).flatMap Prod.snd
      base := base
      pos := Text.size before + Text.size (ps.flatMap Prod.snd)
      rest := qs.flatMap Prod.snd }

section

variable {symbols : SymbolSet} {base : Nat} {before : Text} {ps qs : List (CharClass × Text)}

/-! ## One call -/

theorem next?_reading {cls : CharClass} {piece : Text}
    (h : Munches symbols (((cls, piece) :: qs).flatMap Prod.snd) ((cls, piece) :: qs)) :
    (reading symbols base before ps ((cls, piece) :: qs)).source.next? =
      some (⟨cls, Segmenter.offset base (Text.size before + Text.size (ps.flatMap Prod.snd)),
        Text.size piece⟩, (reading symbols base before (ps ++ [(cls, piece)]) qs).source) := by
  rw [Segmenter.next?, reading, h.munch_eq]
  simp [reading, Nat.add_assoc]

theorem ahead_reading {cls : CharClass} {piece : Text} :
    (reading symbols base before (ps ++ [(cls, piece)]) qs).ahead =
      (reading symbols base before ps ((cls, piece) :: qs)).ahead ++
        [⟨cls, Segmenter.offset base (Text.size before + Text.size (ps.flatMap Prod.snd)),
          Text.size piece⟩] := Segment.layout_append _ _ _ _

/-- To look at more segments is to put the border behind them. -/
theorem fill_reading (h : Munches symbols (qs.flatMap Prod.snd) qs) (n : Nat) :
    (reading symbols base before ps qs).fill n =
      reading symbols base before (ps ++ qs.take n) (qs.drop n) := by
  induction n generalizing ps qs with
  | zero => rw [fill, List.take_zero, List.append_nil, List.drop_zero]
  | succ n ih =>
    cases qs with
    | nil =>
      have hnext : (reading symbols base before ps []).source.next? = none := rfl
      rw [fill, hnext, List.take_nil, List.append_nil, List.drop_nil]
    | cons q qs =>
      obtain ⟨cls, piece⟩ := q
      have hrest : Munches symbols (qs.flatMap Prod.snd) qs :=
        @Munches.of_append symbols _ [(cls, piece)] qs h
      rw [fill, next?_reading h]
      simp only [← ahead_reading]
      show (reading symbols base before (ps ++ [(cls, piece)]) qs).fill n = _
      rw [ih hrest, List.append_assoc, List.singleton_append, List.take_succ_cons,
        List.drop_succ_cons]

/-- The segment that is seen is one of those from the position on, and the position stays. -/
theorem peek_reading (h : Munches symbols (qs.flatMap Prod.snd) qs) (k : Nat) :
    (reading symbols base before ps qs).peek k =
      ((Segment.layout base (Text.size before) (ps ++ qs))[k]?,
        reading symbols base before (ps ++ qs.take (k + 1 - ps.length))
          (qs.drop (k + 1 - ps.length))) := by
  have hlength : (reading symbols base before ps qs).ahead.length = ps.length :=
    Segment.length_layout _ _ _
  rw [peek, hlength, fill_reading h]
  generalize hn : k + 1 - ps.length = n
  refine Prod.ext ?_ rfl
  -- beyond what was looked at there is nothing, or the segment is among what was looked at
  show (Segment.layout base (Text.size before) (ps ++ qs.take n))[k]? =
    (Segment.layout base (Text.size before) (ps ++ qs))[k]?
  by_cases hall : qs.length ≤ n
  · rw [List.take_of_length_le hall]
  · have hk : k < (Segment.layout base (Text.size before) (ps ++ qs.take n)).length := by
      rw [Segment.length_layout, List.length_append, List.length_take]
      omega
    have hsplit : ps ++ qs = (ps ++ qs.take n) ++ qs.drop n := by
      rw [List.append_assoc, List.take_append_drop]
    rw [hsplit, Segment.layout_append base _ (ps ++ qs.take n), List.getElem?_append_left hk]

/-- The position is the one before the segments that were looked at. -/
theorem pos_reading (hfit : base + Text.size before ≤ maxOffset) :
    (reading symbols base before ps qs).pos = Text.size before := by
  cases ps with
  | nil => rfl
  | cons p ps =>
    obtain ⟨cls, piece⟩ := p
    show min (base + Text.size before) maxOffset - base = _
    omega

theorem seek?_reading {pos : Nat} {before' rest : Text}
    (htext : before ++ (ps ++ qs).flatMap Prod.snd = before' ++ rest)
    (hpos : Text.size before' = pos) {rs : List (CharClass × Text)}
    (hrest : Munches symbols rest rs) :
    (reading symbols base before ps qs).seek? pos =
      some (reading symbols base before' [] rs) := by
  have hdrop : Text.dropBytes? pos (reading symbols base before ps qs).source.text = some rest := by
    show Text.dropBytes? pos (before ++ (ps ++ qs).flatMap Prod.snd) = some rest
    rw [htext, ← hpos, Text.dropBytes?_append]
  rw [seek?, Segmenter.seek?, hdrop, hrest.text_eq]
  rw [hrest.text_eq] at htext
  simp only [Option.map_some, ofSegmenter, reading, htext, hpos]
  rfl

end

/-! ## Any number of calls -/

/-- The lookahead is at a position in the text. -/
def At (symbols : SymbolSet) (base : Nat) (before rest : Text) (l : Lookahead) : Prop :=
  ∃ ps qs, Munches symbols rest (ps ++ qs) ∧ l = reading symbols base before ps qs

section

variable {symbols : SymbolSet} {base : Nat} {before rest : Text} {l : Lookahead}

theorem At.peek (h : At symbols base before rest l) (k : Nat) :
    At symbols base before rest (l.peek k).2 := by
  obtain ⟨ps, qs, hps, rfl⟩ := h
  rw [peek_reading hps.of_append]
  refine ⟨_, _, ?_, rfl⟩
  rw [List.append_assoc, List.take_append_drop]
  exact hps

theorem At.seek {before' rest' : Text} (h : At symbols base before rest l)
    (htext : before ++ rest = before' ++ rest') :
    ∃ l', l.seek? (Text.size before') = some l' ∧ At symbols base before' rest' l' := by
  obtain ⟨ps, qs, hps, rfl⟩ := h
  obtain ⟨rs, hrs⟩ := symbols.exists_munches rest'
  rw [hps.text_eq] at htext
  exact ⟨_, seek?_reading htext rfl hrs, [], rs, hrs, rfl⟩

/-- What can be seen from a position. -/
theorem At.peek_eq (h : At symbols base before rest l) (k : Nat) :
    (l.peek k).1 = (symbols.segments (base + Text.size before) rest)[k]? := by
  obtain ⟨ps, qs, hps, rfl⟩ := h
  rw [peek_reading hps.of_append, hps.segments_eq, Segment.layout_base]
  rfl

theorem At.after (calls : List Call) (h : At symbols base before rest l)
    (hcalls : ∀ pos, .seek pos ∈ calls → ∃ front back,
      before ++ rest = front ++ back ∧ Text.size front = pos) :
    ∃ l' front back, l.after? calls = some l' ∧ before ++ rest = front ++ back ∧
      Text.size front = sought (Text.size before) calls ∧ At symbols base front back l' := by
  induction calls generalizing before rest l with
  | nil => exact ⟨l, before, rest, rfl, rfl, rfl, h⟩
  | cons call calls ih =>
    have hbehind (pos : Nat) (hpos : .seek pos ∈ calls) := hcalls pos (List.mem_cons_of_mem _ hpos)
    cases call with
    | peek k => exact ih (h.peek k) hbehind
    | seek pos =>
      obtain ⟨front, back, htext, rfl⟩ := hcalls pos List.mem_cons_self
      obtain ⟨l', hseek, hat⟩ := h.seek htext
      rw [htext] at hbehind ⊢
      rw [after?, hseek]
      exact ih hat hbehind

end

/-- After any calls a lookahead is at the position that was sought last, whatever was looked at
since and whether it was there or not. What is seen next are the segments of the text from there on,
each as far ahead as it is asked for; none is seen exactly if there are too few. -/
theorem sees_ahead (symbols : SymbolSet) {base : Nat} {text : Text}
    (hfit : base + Text.size text ≤ maxOffset) (calls : List Call)
    (hcalls : ∀ pos, .seek pos ∈ calls → ∃ front back,
      text = front ++ back ∧ Text.size front = pos) :
    ∃ l before rest, (ofSegmenter (.ofText symbols base text)).after? calls = some l ∧
      text = before ++ rest ∧ Text.size before = sought 0 calls ∧ l.pos = sought 0 calls ∧
      ∀ k, (l.peek k).1 = (symbols.segments (base + sought 0 calls) rest)[k]? ∧
        ((l.peek k).1 = none ↔
          (symbols.segments (base + sought 0 calls) rest).length < k + 1) := by
  obtain ⟨ps, hps⟩ := symbols.exists_munches text
  have hstart : At symbols base [] text (ofSegmenter (.ofText symbols base text)) := by
    refine ⟨[], ps, hps, ?_⟩
    rw [reading, List.nil_append, List.nil_append, ← hps.text_eq]
    rfl
  obtain ⟨l, before, rest, hafter, rfl, hbefore, hat⟩ := hstart.after calls hcalls
  have hbefore : Text.size before = sought 0 calls := hbefore
  have hpeek (k : Nat) := hat.peek_eq k
  obtain ⟨ps, qs, -, rfl⟩ := hat
  rw [Text.size_append] at hfit
  refine ⟨_, before, rest, hafter, rfl, hbefore, ?_, fun k => ?_⟩
  · rw [pos_reading (by omega), hbefore]
  · rw [← hbefore, hpeek, List.getElem?_eq_none_iff, Nat.lt_succ_iff]
    exact ⟨rfl, Iff.rfl⟩

/-- A look beyond the end, one to the end from a place further on, and one from the end. -/
theorem sees_ahead_digits :
    let text : Text := ['é', '1', '.', '2']
    let calls : List Call := [.peek 9, .seek 2, .peek 2, .peek 3]
    40 + Text.size text ≤ maxOffset ∧
      (∀ pos, .seek pos ∈ calls → ∃ front back, text = front ++ back ∧ Text.size front = pos) ∧
      ∃ l before rest,
        (ofSegmenter (.ofText SymbolSet.empty 40 text)).after? calls = some l ∧
        text = before ++ rest ∧ Text.size before = 2 ∧ l.pos = 2 ∧
        (l.peek 1).1 = some ⟨.atom .dot, 43, 1⟩ ∧ (l.peek 3).1 = none := by
  intro text calls
  have hfit : 40 + Text.size text ≤ maxOffset := by decide
  have hcalls : ∀ pos, .seek pos ∈ calls → ∃ front back,
      text = front ++ back ∧ Text.size front = pos := by
    intro pos hpos
    obtain rfl : pos = 2 := by simpa [calls] using hpos
    exact ⟨['é'], ['1', '.', '2'], rfl, by decide⟩
  obtain ⟨l, before, rest, hafter, htext, hbefore, hpos, hpeek⟩ :=
    sees_ahead SymbolSet.empty hfit calls hcalls
  have hcut : before ++ rest = ['é'] ++ ['1', '.', '2'] := htext.symm
  obtain ⟨-, rfl⟩ := Text.append_inj_of_size hcut hbefore
  refine ⟨hfit, hcalls, l, before, _, hafter, htext, hbefore, hpos, ?_, ?_⟩
  · rw [(hpeek 1).1]
    decide +kernel
  · rw [(hpeek 3).1]
    decide +kernel

end Lookahead

end TokenTree
