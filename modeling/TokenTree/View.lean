import TokenTree.Text.Slice

/-!
# Views of buffers

A view is a piece of a buffer, given by its ends. Views of one buffer share its text: a view holds
the buffer's text from its own start on, of which its text is the first `stop - start` bytes. That
both ends lie between characters of the buffer is part of the type. Views that touch make a wider
view (`append?`).

A `Cursor` is a position in a buffer, from which views are cut one after the other.
-/

namespace TokenTree

/-- A text that is viewed. -/
structure Buffer where
  /-- What tells this buffer from others with the same text. -/
  label : Option Nat
  text : Text

/-- Most comparisons are of a buffer with itself, and end at once. -/
instance : DecidableEq Buffer := fun a b =>
  withPtrEqDecEq a b fun _ =>
    decidable_of_iff (a.label = b.label ∧ a.text = b.text)
      ⟨fun h => by cases a; cases b; cases h.1; cases h.2; rfl, fun h => h ▸ ⟨rfl, rfl⟩⟩

/-- The bytes of a buffer from `start` up to `stop`. -/
structure View where
  buffer : Buffer
  /-- The number of bytes before the view. -/
  start : Nat
  /-- The number of bytes up to the end of the view. -/
  stop : Nat
  /-- The text of the buffer from `start` on. -/
  rest : Text
  /-- Both ends are between characters. -/
  inside : Text.Window buffer.text start stop rest

namespace View

/-- The number of bytes viewed. -/
def length (v : View) : Nat := v.stop - v.start

/-- The text viewed. -/
def text (v : View) : Text := v.rest.takeBytes v.length

/-- The view of a whole buffer. -/
def whole (buffer : Buffer) : View :=
  ⟨buffer, 0, Text.size buffer.text, buffer.text, .whole buffer.text⟩

/-- The bytes of a buffer from `start` up to `stop`; none when these are no offsets in it, are
reversed, or do not lie between characters. -/
def ofRange? (buffer : Buffer) (start stop : Nat) : Option View :=
  if hle : start ≤ stop then
    match hrest : Text.dropBytes? start buffer.text with
    | some rest =>
      match hafter : Text.dropBytes? (stop - start) rest with
      | some _ => some ⟨buffer, start, stop, rest, .of_slice hle hrest hafter⟩
      | none => none
    | none => none
  else none

/-- Two views of one buffer of which the second starts where the first ends, as one. -/
def append? (a b : View) : Option View :=
  if h : a.stop = b.start ∧ a.buffer = b.buffer then
    some ⟨a.buffer, a.start, b.stop, a.rest, a.inside.append (h.1 ▸ h.2 ▸ b.inside)⟩
  else
    none

/-- Views one after the other, with those that touch made one: the first, and the others. -/
def gather (v : View) : List View → View × List View
  | [] => (v, [])
  | w :: ws =>
    match v.append? w with
    | some wide => gather wide ws
    | none =>
      let (x, xs) := gather w ws
      (v, x :: xs)

/-- The texts of views, one after the other. -/
def textOf (views : List View) : Text := views.flatMap text

/-- The number of bytes of views together. -/
def lengthOf (views : List View) : Nat := views.foldl (fun n v => n + v.length) 0

/-- What follows the text of the view in `t`, if `t` starts with it. -/
def strip? (v : View) (t : Text) : Option Text := Text.stripBytes? v.length v.rest t

/-- What follows the texts of views, one after the other, in `t`, if `t` starts with them. -/
def stripAll? : List View → Text → Option Text
  | [], t => some t
  | v :: vs, t =>
    match v.strip? t with
    | some t => stripAll? vs t
    | none => none

/-- The bytes from `start` up to `stop` of the texts of views, one after the other. Whole views
before `start` are passed over. -/
def sliceOf? (start stop : Nat) : List View → Option Text
  | [] => if start = 0 ∧ stop = 0 then some [] else none
  | v :: vs =>
    if v.length ≤ start ∧ v.length < stop then sliceOf? (start - v.length) (stop - v.length) vs
    else if stop ≤ v.length then v.rest.slice? start stop
    else
      (v.rest.slice? start v.length).bind fun head =>
        (sliceOf? 0 (stop - v.length) vs).map (head ++ ·)

end View

/-- A position in a buffer. -/
structure Cursor where
  buffer : Buffer
  /-- The number of bytes before the position. -/
  pos : Nat
  /-- The text from the position on. -/
  rest : Text
  /-- The position is between characters. -/
  inside : ∃ before, buffer.text = before ++ rest ∧ Text.size before = pos

namespace Cursor

/-- The start of a buffer. -/
def ofBuffer (buffer : Buffer) : Cursor := ⟨buffer, 0, buffer.text, [], rfl, rfl⟩

/-- The view of the next `count` characters, or of all there are, and the position after them. -/
def cut (c : Cursor) (count : Nat) : View × Cursor :=
  let stop := c.pos + Text.size (c.rest.take count)
  (⟨c.buffer, c.pos, stop, c.rest,
      c.inside, c.rest.take count, c.rest.drop count, (List.take_append_drop ..).symm, rfl⟩,
    ⟨c.buffer, stop, c.rest.drop count, by
      obtain ⟨before, ht, hp⟩ := c.inside
      exact ⟨before ++ c.rest.take count, by rw [List.append_assoc, List.take_append_drop, ht],
        by rw [Text.size_append, hp]⟩⟩)

end Cursor

/-! ## The text of a view -/

namespace View

theorem length_of_stops {v : View} {piece : Text} (hs : v.start + Text.size piece = v.stop) :
    v.length = Text.size piece := by rw [length]; omega

theorem text_of_stops {v : View} {piece after : Text} (hr : v.rest = piece ++ after)
    (hs : v.start + Text.size piece = v.stop) : v.text = piece := by
  rw [text, length_of_stops hs, hr, Text.takeBytes_append]

/-- A view's text is what follows its start in the buffer, up to its end. -/
theorem exists_rest (v : View) :
    ∃ after, v.rest = v.text ++ after ∧ v.start + Text.size v.text = v.stop := by
  obtain ⟨piece, after, hr, hs⟩ := v.inside.stops
  rw [text_of_stops hr hs]
  exact ⟨after, hr, hs⟩

@[simp] theorem size_text (v : View) : Text.size v.text = v.length := by
  obtain ⟨-, -, hs⟩ := v.exists_rest
  exact (length_of_stops hs).symm

@[simp] theorem text_whole (b : Buffer) : (whole b).text = b.text :=
  text_of_stops (List.append_nil _).symm (Nat.zero_add _)

@[simp] theorem text_cut (c : Cursor) (count : Nat) : (c.cut count).1.text = c.rest.take count :=
  text_of_stops (List.take_append_drop ..).symm rfl

/-- Views that touch have their texts one after the other. -/
theorem text_append? {a b v : View} (h : append? a b = some v) : v.text = a.text ++ b.text := by
  unfold append? at h
  split at h
  · next touch =>
    cases h
    obtain ⟨sa, ha, ea⟩ := a.exists_rest
    obtain ⟨sb, hb, eb⟩ := b.exists_rest
    obtain ⟨beforeA, ta, za⟩ := a.inside.starts
    obtain ⟨beforeB, tb, zb⟩ := b.inside.starts
    have cut : (beforeA ++ a.text) ++ sa = beforeB ++ b.rest := by
      rw [List.append_assoc, ← ha, ← ta, touch.2, tb]
    obtain ⟨-, rfl⟩ := Text.append_inj_of_size cut (by rw [Text.size_append]; omega)
    have hr : a.rest = (a.text ++ b.text) ++ sb := by rw [List.append_assoc, ← hb]; exact ha
    have hs : a.start + Text.size (a.text ++ b.text) = b.stop := by
      rw [Text.size_append]
      omega
    exact text_of_stops hr hs
  · cases h

@[simp] theorem textOf_nil : textOf [] = [] := rfl

@[simp] theorem textOf_cons (v : View) (vs : List View) : textOf (v :: vs) = v.text ++ textOf vs :=
  List.flatMap_cons ..

/-- Making one view of those that touch keeps the text. -/
theorem textOf_gather (v : View) (vs : List View) :
    textOf ((gather v vs).1 :: (gather v vs).2) = v.text ++ textOf vs := by
  induction vs generalizing v with
  | nil => simp [gather]
  | cons w ws ih =>
    rw [gather]
    split
    · next wide h => rw [ih, text_append? h, textOf_cons, List.append_assoc]
    · simp only
      rw [textOf_cons, ih, textOf_cons]

@[simp] theorem size_textOf (vs : List View) : Text.size (textOf vs) = lengthOf vs := by
  have from_ (n : Nat) : n + Text.size (textOf vs) = vs.foldl (fun n v => n + v.length) n := by
    induction vs generalizing n with
    | nil => simp
    | cons v vs ih => rw [textOf_cons, Text.size_append, List.foldl_cons, ← ih, size_text]; omega
  rw [lengthOf, ← from_, Nat.zero_add]

/-- A text starts with that of a view exactly if it can be stripped of it. -/
theorem strip?_eq_some {v : View} {t r : Text} : v.strip? t = some r ↔ t = v.text ++ r := by
  obtain ⟨after, hr, -⟩ := v.exists_rest
  rw [strip?, hr, ← size_text, Text.stripBytes?_append]

theorem stripAll?_eq_some {vs : List View} {t r : Text} :
    stripAll? vs t = some r ↔ t = textOf vs ++ r := by
  induction vs generalizing t with
  | nil => simp [stripAll?]
  | cons v vs ih =>
    rw [stripAll?, textOf_cons, List.append_assoc]
    split
    · next s hs =>
      obtain rfl := strip?_eq_some.1 hs
      rw [ih, List.append_cancel_left_eq]
    · next hs =>
      refine ⟨nofun, fun h => ?_⟩
      rw [strip?_eq_some.2 h] at hs
      cases hs

theorem slice?_rest {v : View} {start stop : Nat} (h : stop ≤ v.length) :
    v.rest.slice? start stop = v.text.slice? start stop := by
  obtain ⟨after, hr, -⟩ := v.exists_rest
  rw [hr, Text.slice?_append_left _ (by rwa [size_text])]

/-- The slice taken view by view is the slice of the whole text. -/
theorem sliceOf?_eq (start stop : Nat) (vs : List View) :
    sliceOf? start stop vs = (textOf vs).slice? start stop := by
  fun_induction sliceOf? start stop vs with
  | case1 start stop h => rw [h.1, h.2]; rfl
  | case2 start stop h =>
    refine (Option.eq_none_iff_forall_ne_some.2 fun piece hpiece => h ?_).symm
    have := Text.bounds_of_slice? hpiece
    simp at this
    omega
  | case3 start stop v vs h ih =>
    rw [ih, textOf_cons, Text.slice?_append_right _ (by simpa using h.1) (by simpa using h.2),
      size_text]
  | case4 start stop v vs h hstop =>
    rw [slice?_rest hstop, textOf_cons, Text.slice?_append_left _ (by simpa using hstop)]
  | case5 start stop v vs h hstop ih =>
    rw [slice?_rest (Nat.le_refl _), ih, textOf_cons,
      Text.slice?_append_across _ (by simp; omega) (by simp; omega), size_text]

end View

end TokenTree
