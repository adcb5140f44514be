import Mathlib.Data.List.Chain
import TokenTree.Proofs.Slices

/-!
# Joined lexemes

Lexemes are made of buffers, of texts that get a buffer of their own, and of other lexemes, by
slicing and joining them. Joined lexemes are a wider view of a buffer if they are views of it that
touch (`Lexeme.join_of_isChain`), and have a new buffer otherwise (`Lexeme.join_of_not_isChain`).

A joined lexeme that is a copy knows its text as views, of which none touches the next
(`Lexeme.Apart`). This is what keeps it from being taken for a view of one of their buffers: if views
of several lexemes touch all along, then each of these lexemes is a single view.
-/

namespace TokenTree

namespace View

variable {v w : View} {vs ws : List View}

/-- The second view starts where the first one ends, in the same buffer. -/
def Touches (v w : View) : Prop := v.stop = w.start ∧ v.buffer = w.buffer

theorem append?_eq_none_iff : v.append? w = none ↔ ¬ v.Touches w := by
  unfold append?
  split
  · next h => exact iff_of_false (Option.some_ne_none _) (not_not_intro h)
  · next h => exact iff_of_true rfl h

theorem ends_of_append? {wide : View} (h : v.append? w = some wide) :
    v.Touches w ∧ wide.buffer = v.buffer ∧ wide.start = v.start ∧ wide.stop = w.stop := by
  unfold append? at h
  split at h
  · next touches =>
    cases h
    exact ⟨touches, rfl, rfl, rfl⟩
  · cases h

theorem first_gather (v : View) (ws : List View) :
    (gather v ws).1.buffer = v.buffer ∧ (gather v ws).1.start = v.start := by
  induction ws generalizing v with
  | nil => exact ⟨rfl, rfl⟩
  | cons w ws ih =>
    rw [gather]
    split
    · next wide h =>
      obtain ⟨-, hbuffer, hstart, -⟩ := ends_of_append? h
      rw [← hbuffer, ← hstart]
      exact ih wide
    · exact ⟨rfl, rfl⟩

/-- Of gathered views none touches the next. -/
theorem isChain_gather (v : View) (ws : List View) :
    ((gather v ws).1 :: (gather v ws).2).IsChain fun v w => ¬ v.Touches w := by
  induction ws generalizing v with
  | nil => exact .singleton v
  | cons w ws ih =>
    rw [gather]
    split
    · next wide h => exact ih wide
    · next h =>
      obtain ⟨hbuffer, hstart⟩ := first_gather w ws
      refine .cons_cons ?_ (ih w)
      rw [Touches, hbuffer, hstart]
      exact append?_eq_none_iff.1 h

theorem isChain_cons_congr (hstop : v.stop = w.stop) (hbuffer : v.buffer = w.buffer) :
    (v :: vs).IsChain Touches ↔ (w :: vs).IsChain Touches := by
  simp only [List.isChain_cons, Touches, hstop, hbuffer]

/-- Views are gathered into one if each touches the next. -/
theorem gather_eq_nil_iff : (gather v ws).2 = [] ↔ (v :: ws).IsChain Touches := by
  induction ws generalizing v with
  | nil => exact iff_of_true rfl (.singleton v)
  | cons w ws ih =>
    rw [gather, List.isChain_cons_cons]
    split
    · next wide h =>
      obtain ⟨touches, hbuffer, -, hstop⟩ := ends_of_append? h
      rw [ih, and_iff_right touches]
      exact isChain_cons_congr hstop (hbuffer.trans touches.2)
    · next h =>
      refine iff_of_false (List.cons_ne_nil _ _) fun hchain => ?_
      exact append?_eq_none_iff.1 h hchain.1

end View

namespace Lexeme

variable {l m j : Lexeme} {ls : List Lexeme}

/-! ## Lexemes that touch -/

/-- The second lexeme starts where the first one ends, in the same buffer. -/
def Touches (l m : Lexeme) : Prop := l.view.Touches m.view

theorem touches_iff : l.Touches m ↔ l.stop = m.start ∧ l.view.buffer = m.view.buffer := by
  rw [Touches, View.Touches, stop_view, start_view]

/-- Of the views that are copied none touches the next. -/
def Apart (l : Lexeme) : Prop := l.views.IsChain fun v w => ¬ v.Touches w

theorem apart_ofView (v : View) : (ofView v).Apart := .singleton v

theorem others_eq_nil (hl : l.Apart) (h : l.views.IsChain View.Touches) : l.others = [] := by
  unfold Apart views at hl
  unfold views at h
  cases hothers : l.others with
  | nil => rfl
  | cons v vs =>
    rw [hothers] at hl h
    exact absurd (List.isChain_cons_cons.1 h).1 (List.isChain_cons_cons.1 hl).1

/-- If the views of lexemes touch all along then the lexemes do. -/
theorem isChain_of_views (hls : ∀ l ∈ ls, l.Apart)
    (h : (ls.flatMap views).IsChain View.Touches) : ls.IsChain Touches := by
  have hsingle : ∀ l ∈ ls, l.views = [l.view] := by
    intro l hl
    obtain ⟨before, after, rfl⟩ := List.append_of_mem hl
    rw [List.flatMap_append, List.flatMap_cons] at h
    have hnil := others_eq_nil (hls l hl) h.right_of_append.left_of_append
    rw [views, view, hnil]
    rfl
  have hviews : ls.flatMap views = ls.map view := by
    rw [List.map_eq_flatMap]
    exact List.flatMap_congr hsingle
  rw [hviews, List.isChain_map] at h
  exact h

/-! ## Joined lexemes -/

theorem append?_eq_none (h : append? l m = none) : ¬ l.Touches m := by
  intro touches
  unfold append? at h
  rw [if_pos (touches_iff.1 touches).1] at h
  exact View.append?_eq_none_iff.1 (Option.map_eq_none_iff.1 h) touches

theorem ends_of_append? (h : append? l m = some j) :
    l.Touches m ∧ j.Apart ∧ j.view.buffer = l.view.buffer ∧ j.start = l.start ∧
      j.stop = m.stop := by
  unfold append? at h
  split at h
  · obtain ⟨v, hv, rfl⟩ := Option.map_eq_some_iff.1 h
    obtain ⟨touches, hbuffer, hstart, hstop⟩ := View.ends_of_append? hv
    exact ⟨touches, apart_ofView v, hbuffer, hstart.trans l.start_view, hstop.trans m.stop_view⟩
  · cases h

theorem isChain_cons_congr (hstop : l.stop = m.stop) (hbuffer : l.view.buffer = m.view.buffer) :
    (l :: ls).IsChain Touches ↔ (m :: ls).IsChain Touches := by
  simp only [List.isChain_cons, touches_iff, hstop, hbuffer]

/-- Lexemes become one wider view if each touches the next. -/
theorem foldlM_append?_of_isChain (hl : l.Apart) (h : (l :: ls).IsChain Touches) :
    ∃ j, ls.foldlM append? l = some j ∧ j.Apart ∧ j.view.buffer = l.view.buffer ∧
      j.start = l.start := by
  induction ls generalizing l with
  | nil => exact ⟨l, rfl, hl, rfl, rfl⟩
  | cons m ls ih =>
    obtain ⟨touches, hchain⟩ := List.isChain_cons_cons.1 h
    cases hwide : append? l m with
    | none => exact absurd touches (append?_eq_none hwide)
    | some wide =>
      obtain ⟨-, hapart, hbuffer, hstart, hstop⟩ := ends_of_append? hwide
      have hsame : wide.view.buffer = m.view.buffer := hbuffer.trans (touches_iff.1 touches).2
      obtain ⟨j, hj, hjapart, hjbuffer, hjstart⟩ :=
        ih hapart ((isChain_cons_congr hstop hsame).2 hchain)
      refine ⟨j, ?_, hjapart, hjbuffer.trans hbuffer, hjstart.trans hstart⟩
      rw [List.foldlM_cons, hwide]
      exact hj

theorem isChain_of_foldlM (h : ls.foldlM append? l = some j) : (l :: ls).IsChain Touches := by
  induction ls generalizing l with
  | nil => exact .singleton l
  | cons m ls ih =>
    rw [List.foldlM_cons] at h
    obtain ⟨wide, hwide, h⟩ := Option.bind_eq_some_iff.1 h
    obtain ⟨touches, -, hbuffer, -, hstop⟩ := ends_of_append? hwide
    have hsame : wide.view.buffer = m.view.buffer := hbuffer.trans (touches_iff.1 touches).2
    exact .cons_cons touches ((isChain_cons_congr hstop hsame).1 (ih h))

/-- Lexemes that touch all along are joined without a copy. -/
theorem join_of_isChain (label : Option Nat) (hl : l.Apart) (h : (l :: ls).IsChain Touches) :
    (join label (l :: ls)).Apart ∧ (join label (l :: ls)).view.buffer = l.view.buffer ∧
      (join label (l :: ls)).start = l.start := by
  obtain ⟨j, hj, hjoin⟩ := foldlM_append?_of_isChain hl h
  rw [join, hj]
  exact hjoin

/-- Lexemes that do not touch all along are copied into a new buffer. -/
theorem join_of_not_isChain (label : Option Nat) (hparts : ∀ p ∈ l :: ls, p.Apart)
    (h : ¬ (l :: ls).IsChain Touches) :
    (join label (l :: ls)).Apart ∧
      (join label (l :: ls)).view = .whole ⟨label, (join label (l :: ls)).text⟩ := by
  have hfold : ls.foldlM append? l = none :=
    Option.eq_none_iff_forall_ne_some.2 fun j hj => h (isChain_of_foldlM hj)
  have hothers : (View.gather l.first (l.others ++ ls.flatMap views)).2 ≠ [] := by
    intro hnil
    exact h (isChain_of_views hparts (View.gather_eq_nil_iff.1 hnil))
  rw [join, hfold]
  refine ⟨View.isChain_gather _ _, ?_⟩
  rw [view, if_neg (mt List.isEmpty_iff.1 hothers)]

end Lexeme

end TokenTree
