import TokenTree.Lexeme

/-!
# Slices of lexemes

A lexeme views a range of its buffer that begins and ends between characters, and its text is what
stands there (`Lexeme.slice?_view`). A slice of it is a lexeme of the same buffer, and there is one
exactly if the range is one of the lexeme's text (`Lexeme.text_slice`). So to slice a slice is to
slice the lexeme itself, further on (`Lexeme.slice_slice`).
-/

namespace TokenTree

namespace Text

variable {t piece : Text} {n start stop : Nat}

/-- Byte `n` of the text begins a character, or is the end of the text. -/
def Boundary (t : Text) (n : Nat) : Prop := ∃ before after, t = before ++ after ∧ size before = n

/-- A range can be cut out if both of its ends are between characters, in their order. -/
theorem exists_slice?_iff :
    (∃ piece, t.slice? start stop = some piece) ↔
      start ≤ stop ∧ t.Boundary start ∧ t.Boundary stop := by
  constructor
  · rintro ⟨piece, h⟩
    obtain ⟨before, after, rfl, rfl, rfl⟩ := slice?_eq_some_iff.1 h
    refine ⟨Nat.le_add_right _ _, ⟨before, piece ++ after, rfl, rfl⟩, before ++ piece, after, ?_, ?_⟩
    · rw [List.append_assoc]
    · rw [size_append]
  · rintro ⟨hle, ⟨before, after, rfl, rfl⟩, before', after', hsplit, rfl⟩
    have hdrop := dropBytes?_append before' after'
    rw [← hsplit, dropBytes?_append_right after hle] at hdrop
    obtain ⟨piece, rfl, hpiece⟩ := dropBytes?_eq_some hdrop
    exact ⟨piece, slice?_eq_some_iff.2 ⟨before, after', rfl, rfl, by omega⟩⟩

theorem slice?_append_add (s t : Text) :
    slice? (size s + start) (size s + stop) (s ++ t) = slice? start stop t := by
  unfold slice?
  rw [dropBytes?_append_right t (Nat.le_add_right _ _), Nat.add_sub_cancel_left,
    Nat.add_sub_add_left]
  simp only [Nat.add_le_add_iff_left]

end Text

namespace View

variable {buffer : Buffer} {start stop : Nat} {v : View}

/-- A view's text is what stands in the buffer between its ends. -/
theorem slice?_eq_text (v : View) : v.buffer.text.slice? v.start v.stop = some v.text := by
  obtain ⟨before, hbefore, hstart⟩ := v.inside.starts
  obtain ⟨after, hafter, hstop⟩ := v.exists_rest
  exact Text.slice?_eq_some_iff.2 ⟨before, after, by rw [hbefore, hafter], hstart, hstop⟩

theorem ends_of_ofRange? (h : ofRange? buffer start stop = some v) :
    v.buffer = buffer ∧ v.start = start ∧ v.stop = stop := by
  unfold ofRange? at h
  split at h
  · split at h
    · split at h
      · cases h
        exact ⟨rfl, rfl, rfl⟩
      · cases h
    · cases h
  · cases h

/-- A range can be viewed if it can be cut out. -/
theorem text_ofRange? (buffer : Buffer) (start stop : Nat) :
    (ofRange? buffer start stop).map text = buffer.text.slice? start stop := by
  cases h : ofRange? buffer start stop with
  | some v =>
    obtain ⟨rfl, rfl, rfl⟩ := ends_of_ofRange? h
    exact v.slice?_eq_text.symm
  | none =>
    unfold ofRange? at h
    unfold Text.slice? Text.splitBytes?
    split at h
    · next hle =>
      rw [if_pos hle]
      split at h
      · next rest hrest =>
        rw [hrest]
        split at h
        · cases h
        · next hafter =>
          rw [Option.bind_some, hafter]
          rfl
      · next hrest => rw [hrest]; rfl
    · next hle => rw [if_neg hle]; rfl

end View

namespace Lexeme

variable {l m : Lexeme} {a b c d : Nat}

theorem start_view (l : Lexeme) : l.view.start = l.start := by
  unfold view start
  split
  · rfl
  · rfl

theorem stop_view (l : Lexeme) : l.view.stop = l.stop := by
  unfold view stop
  split
  · rfl
  · exact l.size_text

theorem start_add_length (l : Lexeme) : l.start + l.length = l.stop := by
  obtain ⟨-, -, hstop⟩ := l.view.exists_rest
  rwa [text_view, size_text, start_view, stop_view] at hstop

/-- A lexeme's text is what stands in its buffer between its ends. -/
theorem slice?_view (l : Lexeme) : l.view.buffer.text.slice? l.start l.stop = some l.text := by
  rw [← start_view, ← stop_view, ← text_view]
  exact l.view.slice?_eq_text

theorem text_ofRange (buffer : Buffer) (start stop : Nat) :
    (ofRange buffer start stop).toOption.map text = buffer.text.slice? start stop := by
  rw [← View.text_ofRange?, ofRange]
  cases View.ofRange? buffer start stop with
  | some v => exact congrArg some (text_ofView v)
  | none => rfl

/-- A lexeme can be sliced where its text can be, and then has that slice for its text. -/
theorem text_slice (l : Lexeme) (a b : Nat) :
    (l.slice a b).toOption.map text = l.text.slice? a b := by
  unfold slice
  split
  · next hb =>
    refine (Option.eq_none_iff_forall_ne_some.2 fun piece hpiece => ?_).symm
    have hbounds := (Text.bounds_of_slice? hpiece).2
    rw [size_text] at hbounds
    omega
  · next hb =>
    obtain ⟨before, after, hbuffer, hstart, -⟩ := Text.slice?_eq_some_iff.1 l.slice?_view
    rw [text_ofRange, hbuffer, ← hstart, Text.slice?_append_add,
      Text.slice?_append_left after (by rw [size_text]; omega)]

theorem exists_slice_iff :
    (∃ m, l.slice a b = .ok m) ↔
      a ≤ b ∧ b ≤ l.length ∧ l.text.Boundary a ∧ l.text.Boundary b := by
  have hslice : (∃ m, l.slice a b = .ok m) ↔ ∃ piece, l.text.slice? a b = some piece := by
    rw [← text_slice]
    cases l.slice a b with
    | ok m => exact iff_of_true ⟨m, rfl⟩ ⟨m.text, rfl⟩
    | error e => exact iff_of_false (fun ⟨_, h⟩ => nomatch h) (fun ⟨_, h⟩ => nomatch h)
  constructor
  · intro h
    obtain ⟨piece, hpiece⟩ := hslice.1 h
    obtain ⟨hle, hboundaries⟩ := Text.exists_slice?_iff.1 ⟨piece, hpiece⟩
    refine ⟨hle, ?_, hboundaries⟩
    rw [← size_text]
    exact (Text.bounds_of_slice? hpiece).2
  · rintro ⟨hle, -, hboundaries⟩
    exact hslice.2 (Text.exists_slice?_iff.2 ⟨hle, hboundaries⟩)

theorem view_of_ofRange {buffer : Buffer} (h : ofRange buffer a b = .ok m) :
    ∃ v, m = ofView v ∧ v.buffer = buffer ∧ v.start = a ∧ v.stop = b := by
  unfold ofRange at h
  split at h
  · next v hv =>
    cases h
    exact ⟨v, rfl, View.ends_of_ofRange? hv⟩
  · cases h

/-- A slice views the buffer of the lexeme. -/
theorem view_of_slice (h : l.slice a b = .ok m) :
    b ≤ l.length ∧ ∃ v, m = ofView v ∧ v.buffer = l.view.buffer ∧ v.start = l.start + a ∧
      v.stop = l.start + b := by
  unfold slice at h
  split at h
  · cases h
  · next hb => exact ⟨Nat.not_lt.1 hb, view_of_ofRange h⟩

/-- A slice of a slice is a slice of the lexeme, at the sums of the offsets. Where there is none the
errors are the same, unless the range ends beyond the slice. -/
theorem slice_slice (h : l.slice a b = .ok m) (hd : d ≤ m.length) :
    m.slice c d = l.slice (a + c) (a + d) := by
  obtain ⟨hb, v, rfl, hbuffer, hstart, hstop⟩ := view_of_slice h
  have hlength : v.start + (ofView v).length = v.stop := (ofView v).start_add_length
  have hinside : a + d ≤ l.length := by omega
  rw [slice, slice, if_neg (Nat.not_lt.2 hd), if_neg (Nat.not_lt.2 hinside), ← hbuffer,
    ← Nat.add_assoc, ← Nat.add_assoc, ← hstart]
  rfl

end Lexeme

end TokenTree
