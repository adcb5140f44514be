import TokenTree.Text.Basic

/-!
# Slices of text

A slice of a text is what stands between two of its byte offsets, both of which are between
characters. `slice?_eq_some_iff` says so. The slices of two texts one after the other are slices of
the first, slices of the second, and an end of the first with a beginning of the second.
-/

namespace TokenTree

namespace Text

/-- The text cut at byte `n`, if that is between characters. -/
def splitBytes? (n : Nat) (t : Text) : Option (Text × Text) :=
  (dropBytes? n t).map fun rest => (takeBytes n t, rest)

/-- The bytes from `start` to `stop`, if both ends are between characters. -/
def slice? (start stop : Nat) (t : Text) : Option Text :=
  if start ≤ stop then
    (dropBytes? start t).bind fun rest => (splitBytes? (stop - start) rest).map Prod.fst
  else
    none

/-! ## What a slice is -/

theorem splitBytes?_append (s t : Text) : splitBytes? (size s) (s ++ t) = some (s, t) := by
  simp [splitBytes?, dropBytes?_append]

/-- Cutting a text loses nothing of it, and cuts at the offset. -/
theorem splitBytes?_eq_some_iff {n : Nat} {t s r : Text} :
    splitBytes? n t = some (s, r) ↔ t = s ++ r ∧ size s = n := by
  constructor
  · intro h
    obtain ⟨rest, hrest, h⟩ := Option.map_eq_some_iff.1 h
    obtain ⟨before, rfl, rfl⟩ := dropBytes?_eq_some hrest
    rw [takeBytes_append] at h
    cases h
    exact ⟨rfl, rfl⟩
  · rintro ⟨rfl, rfl⟩
    exact splitBytes?_append s r

/-- The slice stands in the text behind `start` bytes, and ends at byte `stop`. -/
theorem slice?_eq_some_iff {start stop : Nat} {t piece : Text} :
    slice? start stop t = some piece ↔
      ∃ before after, t = before ++ (piece ++ after) ∧
        size before = start ∧ start + size piece = stop := by
  unfold slice?
  constructor
  · intro h
    split at h
    · next hle =>
      obtain ⟨rest, hrest, h⟩ := Option.bind_eq_some_iff.1 h
      obtain ⟨⟨_, after⟩, hsplit, rfl⟩ := Option.map_eq_some_iff.1 h
      obtain ⟨before, ht, hbefore⟩ := dropBytes?_eq_some hrest
      obtain ⟨hr, hpiece⟩ := splitBytes?_eq_some_iff.1 hsplit
      exact ⟨before, after, by rw [ht, hr], hbefore, by simp only; omega⟩
    · cases h
  · rintro ⟨before, after, rfl, rfl, rfl⟩
    rw [if_pos (Nat.le_add_right ..), dropBytes?_append, Option.bind_some, Nat.add_sub_cancel_left,
      splitBytes?_append]
    rfl

/-- A slice lies within its text. -/
theorem bounds_of_slice? {start stop : Nat} {t piece : Text}
    (h : slice? start stop t = some piece) : start ≤ stop ∧ stop ≤ size t := by
  obtain ⟨before, after, rfl, hstart, hstop⟩ := slice?_eq_some_iff.1 h
  rw [size_append, size_append]
  omega

/-! ## Slices of two parts -/

theorem splitBytes?_append_left {n : Nat} {s : Text} (t : Text) (h : n ≤ size s) :
    splitBytes? n (s ++ t) = (splitBytes? n s).map fun (u, rest) => (u, rest ++ t) := by
  simp [splitBytes?, dropBytes?_append_left t h, takeBytes_append_left t h, Function.comp_def]

theorem splitBytes?_append_right {n : Nat} {s : Text} (t : Text) (h : size s ≤ n) :
    splitBytes? n (s ++ t) = (splitBytes? (n - size s) t).map fun (u, rest) => (s ++ u, rest) := by
  simp [splitBytes?, dropBytes?_append_right t h, takeBytes_append_right t h, Function.comp_def]

/-- A slice of the first part. -/
theorem slice?_append_left {start stop : Nat} {s : Text} (t : Text) (h : stop ≤ size s) :
    slice? start stop (s ++ t) = slice? start stop s := by
  unfold slice?
  split
  · next hle =>
    rw [dropBytes?_append_left t (by omega)]
    cases hs : dropBytes? start s with
    | none => rfl
    | some rest =>
      have := dropBytes?_size hs
      show (splitBytes? _ (rest ++ t)).map _ = (splitBytes? _ rest).map _
      rw [splitBytes?_append_left t (by omega), Option.map_map]
      rfl
  · rfl

/-- A slice of the second part. -/
theorem slice?_append_right {start stop : Nat} {s : Text} (t : Text) (hstart : size s ≤ start)
    (hstop : size s < stop) :
    slice? start stop (s ++ t) = slice? (start - size s) (stop - size s) t := by
  unfold slice?
  rw [dropBytes?_append_right t hstart, Nat.sub_sub_sub_cancel_right (by omega)]
  simp only [show start - size s ≤ stop - size s ↔ start ≤ stop by omega]

/-- A slice that starts in the first part and ends in the second. -/
theorem slice?_append_across {start stop : Nat} {s : Text} (t : Text) (hstart : start ≤ size s)
    (hstop : size s ≤ stop) :
    slice? start stop (s ++ t) =
      (slice? start (size s) s).bind fun head => (slice? 0 (stop - size s) t).map (head ++ ·) := by
  unfold slice?
  rw [if_pos (by omega), if_pos hstart, if_pos (Nat.zero_le _), dropBytes?_append_left t hstart]
  cases hs : dropBytes? start s with
  | none => rfl
  | some rest =>
    have hsize := dropBytes?_size hs
    have whole : splitBytes? (size s - start) rest = some (rest, []) := by
      rw [show size s - start = size rest by omega]
      simpa using splitBytes?_append rest []
    show (splitBytes? _ (rest ++ t)).map _ = ((splitBytes? _ rest).map _).bind _
    rw [splitBytes?_append_right t (by omega), whole,
      show stop - start - size rest = stop - size s by omega]
    simp [dropBytes?, Function.comp_def]

end Text

end TokenTree
