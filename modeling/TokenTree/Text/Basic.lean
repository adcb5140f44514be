/-!
# Text and its byte offsets

A text is a list of characters. Positions in it are counted in bytes of its UTF-8 form, so this
file holds the two ways of going from one to the other: the `size` of a text in bytes, and the
functions that go to a byte offset. An offset may fall inside a character. `dropBytes?` refuses such
an offset, `seek` moves on to the next character and `takeBytes` stays before it.

A `Window` is the relation behind every view of a text: the bytes from `start` to `stop` begin and
end between characters, and `rest` is all that follows byte `start`.
-/

namespace TokenTree

/-- A text, as its characters. -/
abbrev Text := List Char

namespace Text

/-- The number of bytes of the UTF-8 form. -/
def size (t : Text) : Nat := t.foldl (fun n c => n + c.utf8Size) 0

/-- What follows the first `n` bytes, if these end between characters. -/
def dropBytes? : Nat → Text → Option Text
  | 0, t => some t
  | _ + 1, [] => none
  | n + 1, c :: r => if c.utf8Size ≤ n + 1 then dropBytes? (n + 1 - c.utf8Size) r else none

/-- The reverse of `seen`, then the characters that lie wholly within the first `n` bytes. -/
def takeBytesOnto (seen : Text) : Nat → Text → Text
  | _, [] => seen.reverse
  | n, c :: r =>
    if c.utf8Size ≤ n then takeBytesOnto (c :: seen) (n - c.utf8Size) r else seen.reverse

/-- The characters that lie wholly within the first `n` bytes. -/
def takeBytes (n : Nat) (t : Text) : Text := takeBytesOnto [] n t

/-- What follows the first `n` bytes of `p` in `t`, if `t` starts with them. -/
def stripBytes? : Nat → Text → Text → Option Text
  | _, [], t => some t
  | n, c :: p, t =>
    if c.utf8Size ≤ n then
      match t with
      | [] => none
      | d :: t => if c = d then stripBytes? (n - c.utf8Size) p t else none
    else
      some t

/-- `count` more than the number of characters before the first boundary at or after byte `n`,
with the text from there on. -/
def seekFrom (count : Nat) : Nat → Text → Nat × Text
  | _, [] => (count, [])
  | n, c :: r => if n = 0 then (count, c :: r) else seekFrom (count + 1) (n - c.utf8Size) r

/-- The number of characters before the first boundary at or after byte `n`, with the text from
there on; all of the text when there is no such boundary. -/
def seek (n : Nat) (t : Text) : Nat × Text := seekFrom 0 n t

/-- `count` more than the number of characters up to the end of the first occurrence of `mark`. -/
def endOfFrom? (mark : Text) (count : Nat) : Text → Option Nat
  | [] => if mark.isEmpty then some count else none
  | c :: r =>
    if mark.isPrefixOf (c :: r) then some (count + mark.length) else endOfFrom? mark (count + 1) r

/-- The number of characters up to the end of the first occurrence of `mark`. -/
def endOf? (t mark : Text) : Option Nat := endOfFrom? mark 0 t

/-- The bytes of `t` from `start` to `stop` begin and end between characters, and `rest` is what
follows byte `start`. -/
structure Window (t : Text) (start stop : Nat) (rest : Text) : Prop where
  /-- Something of `start` bytes stands before the window. -/
  starts : ∃ before, t = before ++ rest ∧ size before = start
  /-- The window is the first `stop - start` bytes of what follows. -/
  stops : ∃ inside after, rest = inside ++ after ∧ start + size inside = stop

/-! ## The size of a text -/

theorem foldl_size (t : Text) (n : Nat) :
    t.foldl (fun n c => n + c.utf8Size) n = n + t.foldl (fun n c => n + c.utf8Size) 0 := by
  induction t generalizing n with
  | nil => rfl
  | cons c r ih =>
    rw [List.foldl_cons, List.foldl_cons, ih (n + c.utf8Size), ih (0 + c.utf8Size)]
    omega

@[simp] theorem size_nil : size [] = 0 := rfl

@[simp] theorem size_cons (c : Char) (t : Text) : size (c :: t) = c.utf8Size + size t := by
  rw [size, List.foldl_cons, foldl_size, Nat.zero_add]
  rfl

@[simp] theorem size_append (s t : Text) : size (s ++ t) = size s + size t := by
  induction s with
  | nil => simp
  | cons c r ih => simp [ih, Nat.add_assoc]

theorem size_pos {t : Text} (h : t ≠ []) : 0 < size t := by
  cases t with
  | nil => exact absurd rfl h
  | cons c r =>
    have hpos := Char.utf8Size_pos c
    rw [size_cons]
    omega

/-! ## Going to a byte offset -/

theorem dropBytes?_eq_some {n : Nat} {t r : Text} (h : dropBytes? n t = some r) :
    ∃ before, t = before ++ r ∧ size before = n := by
  fun_induction dropBytes? n t with
  | case1 t => exact ⟨[], by simpa using h, rfl⟩
  | case2 => cases h
  | case3 n c t fits ih =>
    obtain ⟨before, rfl, hsize⟩ := ih h
    exact ⟨c :: before, rfl, by rw [size_cons]; omega⟩
  | case4 => cases h

/-- An offset that lies between two parts of a text is found there. -/
theorem dropBytes?_append (s t : Text) : dropBytes? (size s) (s ++ t) = some t := by
  induction s with
  | nil => cases t <;> rfl
  | cons c r ih =>
    have pos := Char.utf8Size_pos c
    obtain ⟨n, hn⟩ : ∃ n, size (c :: r) = n + 1 := ⟨size (c :: r) - 1, by simp; omega⟩
    have fits : c.utf8Size ≤ n + 1 := by simp at hn; omega
    have rest : n + 1 - c.utf8Size = size r := by simp at hn; omega
    rw [hn, List.cons_append, dropBytes?, if_pos fits, rest, ih]

theorem dropBytes?_size {n : Nat} {t r : Text} (h : dropBytes? n t = some r) :
    n + size r = size t := by
  obtain ⟨before, rfl, rfl⟩ := dropBytes?_eq_some h
  rw [size_append]

/-- An offset in the first of two parts of a text. -/
theorem dropBytes?_append_left {n : Nat} {s : Text} (t : Text) (h : n ≤ size s) :
    dropBytes? n (s ++ t) = (dropBytes? n s).map (· ++ t) := by
  fun_induction dropBytes? n s with
  | case1 s => cases s <;> cases t <;> rfl
  | case2 => simp at h
  | case3 n c s fits ih =>
    rw [size_cons] at h
    rw [List.cons_append, dropBytes?, if_pos fits, ih (by omega)]
  | case4 n c s fits => rw [List.cons_append, dropBytes?, if_neg fits]; rfl

/-- An offset in the second of two parts of a text. -/
theorem dropBytes?_append_right {n : Nat} {s : Text} (t : Text) (h : size s ≤ n) :
    dropBytes? n (s ++ t) = dropBytes? (n - size s) t := by
  induction s generalizing n with
  | nil => rfl
  | cons c s ih =>
    have pos := Char.utf8Size_pos c
    rw [size_cons] at h
    obtain ⟨n, rfl⟩ : ∃ m, n = m + 1 := ⟨n - 1, by omega⟩
    rw [List.cons_append, dropBytes?, if_pos (by omega), ih (by omega), size_cons, Nat.sub_sub]

theorem takeBytesOnto_eq (seen t : Text) (n : Nat) :
    takeBytesOnto seen n t = seen.reverse ++ takeBytes n t := by
  induction t generalizing seen n with
  | nil => simp [takeBytes, takeBytesOnto]
  | cons c r ih =>
    simp only [takeBytes, takeBytesOnto]
    split
    · rw [ih, ih [c]]
      simp
    · simp

theorem takeBytesOnto_append (seen s t : Text) :
    takeBytesOnto seen (size s) (s ++ t) = seen.reverse ++ s := by
  induction s generalizing seen with
  | nil =>
    cases t with
    | nil => simp [takeBytesOnto]
    | cons c r =>
      have pos := Char.utf8Size_pos c
      simp only [size_nil, List.nil_append, takeBytesOnto, List.append_nil]
      rw [if_neg (by omega)]
  | cons c r ih =>
    simp only [List.cons_append, takeBytesOnto, size_cons]
    rw [if_pos (by omega), Nat.add_sub_cancel_left, ih]
    simp

/-- The bytes of the first of two parts are its characters. -/
@[simp] theorem takeBytes_append (s t : Text) : takeBytes (size s) (s ++ t) = s := by
  simp [takeBytes, takeBytesOnto_append]

theorem takeBytes_append_left {n : Nat} {s : Text} (t : Text) (h : n ≤ size s) :
    takeBytes n (s ++ t) = takeBytes n s := by
  have onto (seen : Text) : takeBytesOnto seen n (s ++ t) = takeBytesOnto seen n s := by
    induction s generalizing seen n with
    | nil =>
      obtain rfl : n = 0 := by simpa using h
      exact (takeBytesOnto_append seen [] t).trans (by simp [takeBytesOnto])
    | cons c s ih =>
      rw [size_cons] at h
      simp only [List.cons_append, takeBytesOnto]
      rw [ih (by omega)]
  exact onto []

theorem takeBytes_append_right {n : Nat} {s : Text} (t : Text) (h : size s ≤ n) :
    takeBytes n (s ++ t) = s ++ takeBytes (n - size s) t := by
  have onto (seen : Text) :
      takeBytesOnto seen n (s ++ t) = takeBytesOnto (s.reverse ++ seen) (n - size s) t := by
    induction s generalizing seen n with
    | nil => rfl
    | cons c s ih =>
      rw [size_cons] at h
      rw [List.cons_append, takeBytesOnto, if_pos (by omega), ih (by omega), size_cons, Nat.sub_sub]
      simp
  rw [takeBytes, onto, List.append_nil, takeBytesOnto_eq, List.reverse_reverse]

theorem stripBytes?_append (s after : Text) {t r : Text} :
    stripBytes? (size s) (s ++ after) t = some r ↔ t = s ++ r := by
  induction s generalizing t with
  | nil =>
    cases after with
    | nil => simp [stripBytes?]
    | cons c r =>
      have pos := Char.utf8Size_pos c
      simp only [size_nil, List.nil_append, stripBytes?]
      rw [if_neg (by omega), Option.some_inj]
  | cons c s ih =>
    simp only [List.cons_append, stripBytes?, size_cons]
    rw [if_pos (by omega), Nat.add_sub_cancel_left]
    cases t with
    | nil => simp
    | cons d t =>
      by_cases h : c = d
      · simp [h, ih]
      · simp [h, Ne.symm h]

/-! ## Windows -/

/-- A text is cut at a given size in one way only. -/
theorem append_inj_of_size {s t s' t' : Text} (h : s ++ t = s' ++ t') (hs : size s = size s') :
    s = s' ∧ t = t' := by
  have first : s = s' := by rw [← takeBytes_append s t, h, hs, takeBytes_append]
  exact ⟨first, List.append_cancel_left (first ▸ h)⟩

namespace Window

/-- The whole of a text is a window of it. -/
theorem whole (t : Text) : Window t 0 (size t) t :=
  ⟨⟨[], rfl, rfl⟩, ⟨t, [], by simp, by simp⟩⟩

variable {t : Text} {a b d : Nat} {r s : Text}

/-- Two windows that touch make one. -/
theorem append (h : Window t a b r) (k : Window t b d s) : Window t a d r := by
  obtain ⟨before, ht, ha⟩ := h.starts
  obtain ⟨inside, after, hr, hb⟩ := h.stops
  obtain ⟨before', ht', hb'⟩ := k.starts
  obtain ⟨inside', after', hs, hd⟩ := k.stops
  have cut : (before ++ inside) ++ after = before' ++ s := by
    rw [List.append_assoc, ← hr, ← ht, ht']
  obtain ⟨-, rfl⟩ := append_inj_of_size cut (by rw [size_append]; omega)
  exact ⟨h.starts, inside ++ inside', after', by rw [hr, hs, List.append_assoc],
    by rw [size_append]; omega⟩

/-- The bytes of a slice are a window, with what follows its start. -/
theorem of_slice {rest inside : Text} (hle : a ≤ b) (hrest : dropBytes? a t = some rest)
    (hinside : dropBytes? (b - a) rest = some inside) : Window t a b rest := by
  obtain ⟨before, ht, hbefore⟩ := dropBytes?_eq_some hrest
  obtain ⟨mid, hr, hmid⟩ := dropBytes?_eq_some hinside
  exact ⟨⟨before, ht, hbefore⟩, ⟨mid, inside, hr, by omega⟩⟩

end Window

end Text

end TokenTree
