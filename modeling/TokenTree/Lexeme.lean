import TokenTree.View

/-!
# Lexemes

A lexeme is the text of a token. As long as the text is one piece of a buffer the lexeme is a view
of it, and costs nothing beyond the buffer. The text of a block whose parts were delivered one by
one is no such piece. Its lexeme counts as a view of a whole new buffer, into which the parts are
copied; but the copy is made only where it is asked for, and until then the lexeme is the list of
the views that are to be copied, with those that touch made one.
-/

namespace TokenTree

/-- A view of a buffer, or of a copy of several views one after the other. -/
structure Lexeme where
  /-- The label of the buffer for the copy, if there are several views. -/
  label : Option Nat
  first : View
  others : List View

namespace Lexeme

/-- The lexeme of one view. -/
def ofView (v : View) : Lexeme := ⟨none, v, []⟩

/-- The views, one after the other. -/
def views (l : Lexeme) : List View := l.first :: l.others

/-- The number of bytes of the text. -/
def length (l : Lexeme) : Nat := View.lengthOf l.views

/-- The text. -/
def text (l : Lexeme) : Text := View.textOf l.views

/-- The number of bytes of the buffer before the text. -/
def start (l : Lexeme) : Nat := if l.others.isEmpty then l.first.start else 0

/-- The number of bytes of the buffer up to the end of the text. -/
def stop (l : Lexeme) : Nat := if l.others.isEmpty then l.first.stop else l.length

/-- The lexeme as one view. -/
def view (l : Lexeme) : View := if l.others.isEmpty then l.first else .whole ⟨l.label, l.text⟩

/-- The bytes of the text from `start` up to `stop`, if these are offsets in it and lie between
characters. -/
def slice? (l : Lexeme) (start stop : Nat) : Option Text :=
  if start ≤ stop ∧ stop ≤ l.length then View.sliceOf? start stop l.views else none

/-- Both lexemes have the same text. -/
def sameText (a b : Lexeme) : Bool :=
  a.length == b.length &&
    (View.stripAll? a.views (if b.others.isEmpty then b.first.rest else b.text)).isSome

/-- What keeps a range from being viewed. -/
inductive RangeError where
  /-- The range leaves the buffer, is reversed, or has an end inside a character. -/
  | misaligned (start stop size : Nat)
  /-- The range ends beyond the lexeme it is relative to. -/
  | outside (start stop : Nat)
  deriving DecidableEq, Repr

/-- The wording of the error. -/
def RangeError.message : RangeError → String
  | misaligned start stop size =>
    "lexeme range " ++ toString start ++ ".." ++ toString stop
      ++ " is not a char-aligned range of a " ++ toString size ++ "-byte buffer"
  | outside start stop => "slice " ++ toString start ++ ".." ++ toString stop ++ " outside lexeme"

/-- The bytes of a buffer from `start` up to `stop`. -/
def ofRange (buffer : Buffer) (start stop : Nat) : Except RangeError Lexeme :=
  match View.ofRange? buffer start stop with
  | some v => .ok (ofView v)
  | none => .error (.misaligned start stop (Text.size buffer.text))

/-- The whole of a buffer. -/
def whole (buffer : Buffer) : Lexeme := ofView (.whole buffer)

/-- A text in a buffer of its own. -/
def copied (text : Text) : Lexeme := whole ⟨none, text⟩

/-- The bytes of a lexeme from `start` up to `stop`. -/
def slice (l : Lexeme) (start stop : Nat) : Except RangeError Lexeme :=
  if l.length < stop then .error (.outside start stop)
  else ofRange l.view.buffer (l.start + start) (l.start + stop)

/-- Both lexemes view the same buffer. -/
def sharesBuffer (a b : Lexeme) : Bool := a.view.buffer = b.view.buffer

/-- Two lexemes that view one buffer, the second from where the first ends, as one. -/
def append? (a b : Lexeme) : Option Lexeme :=
  if a.stop = b.start then (a.view.append? b.view).map ofView else none

/-- The parts one after the other: a wider view when each part starts where the one before it ends,
else a copy into a new buffer with the given label. -/
def join (label : Option Nat) : List Lexeme → Lexeme
  | [] => whole ⟨label, []⟩
  | part :: parts =>
    match parts.foldlM append? part with
    | some wide => wide
    | none =>
      let (first, others) := View.gather part.first (part.others ++ parts.flatMap views)
      ⟨label, first, others⟩

/-! ## The text of a lexeme -/

@[simp] theorem text_ofView (v : View) : (ofView v).text = v.text := by simp [text, views, ofView]

@[simp] theorem text_whole (b : Buffer) : (whole b).text = b.text := by simp [whole]

@[simp] theorem size_text (l : Lexeme) : Text.size l.text = l.length := by
  rw [text, View.size_textOf, length]

/-- As one view a lexeme has the same text. -/
@[simp] theorem text_view (l : Lexeme) : l.view.text = l.text := by
  unfold view
  split
  · next h => simp [text, views, List.isEmpty_iff.1 h]
  · simp

theorem text_append? {a b l : Lexeme} (h : append? a b = some l) : l.text = a.text ++ b.text := by
  unfold append? at h
  split at h
  · obtain ⟨v, hv, rfl⟩ := Option.map_eq_some_iff.1 h
    rw [text_ofView, View.text_append? hv, text_view, text_view]
  · cases h

/-- The text of joined parts is their texts one after the other. -/
@[simp] theorem text_join (label : Option Nat) (parts : List Lexeme) :
    (join label parts).text = parts.flatMap text := by
  have widen (a : Lexeme) (others : List Lexeme) (l : Lexeme)
      (h : others.foldlM append? a = some l) : l.text = a.text ++ others.flatMap text := by
    induction others generalizing a with
    | nil => cases h; simp
    | cons b others ih =>
      rw [List.foldlM_cons] at h
      obtain ⟨m, hm, h⟩ := Option.bind_eq_some_iff.1 h
      rw [ih m h, text_append? hm, List.flatMap_cons, List.append_assoc]
  cases parts with
  | nil => simp [join]
  | cons part parts =>
    rw [join]
    split
    · next l h => rw [widen part parts l h, List.flatMap_cons]
    · show View.textOf (_ :: _) = _
      have flat : View.textOf (parts.flatMap views) = parts.flatMap text := by
        rw [View.textOf, List.flatMap_assoc]
        rfl
      rw [View.textOf_gather, View.textOf, List.flatMap_append]
      show _ ++ (_ ++ View.textOf _) = _
      rw [flat, ← List.append_assoc, List.flatMap_cons]
      rfl

/-- A slice of a lexeme is the slice of its text. -/
theorem slice?_eq (l : Lexeme) (start stop : Nat) :
    l.slice? start stop = l.text.slice? start stop := by
  rw [slice?, View.sliceOf?_eq]
  split
  · rfl
  · next h =>
    refine (Option.eq_none_iff_forall_ne_some.2 fun piece hpiece => h ?_).symm
    rw [← size_text]
    exact Text.bounds_of_slice? hpiece

/-- The comparison view by view finds out whether the texts are the same. -/
theorem sameText_iff {a b : Lexeme} : a.sameText b = true ↔ a.text = b.text := by
  obtain ⟨after, hafter⟩ : ∃ after,
      (if b.others.isEmpty then b.first.rest else b.text) = b.text ++ after := by
    split
    · next h =>
      obtain ⟨after, hr, -⟩ := b.first.exists_rest
      exact ⟨after, by simpa [text, views, List.isEmpty_iff.1 h] using hr⟩
    · exact ⟨[], (List.append_nil _).symm⟩
  rw [sameText, hafter, Bool.and_eq_true, beq_iff_eq, Option.isSome_iff_exists]
  simp only [View.stripAll?_eq_some]
  constructor
  · rintro ⟨hlen, r, hr⟩
    have hsize : Text.size b.text = Text.size a.text := by rw [size_text, size_text, hlen]
    exact (Text.append_inj_of_size hr hsize).1.symm
  · intro h
    exact ⟨by rw [← size_text, ← size_text, h], after, by rw [← h]; rfl⟩

end Lexeme

end TokenTree
