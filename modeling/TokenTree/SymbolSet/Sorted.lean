/-!
# Sorted characters

An array of characters in ascending order, in which a character is looked for by bisection. The
search also tells where a character that is missing belongs (`search_error`), so that it can be put
there.
-/

namespace TokenTree

/-- Characters in ascending order. -/
structure SortedChars where
  /-- The characters. -/
  chars : Array Char
  /-- No character stands twice or out of order. -/
  ascending : chars.toList.Pairwise (· < ·)
  deriving DecidableEq

namespace SortedChars

variable {cs : Array Char} {c : Char} {lo hi i : Nat}

/-! ## Bisection -/

/-- Looks for a character from the index `lo` up to the index `hi`. The result is its index, or as
an error the index where it belongs. -/
def search (cs : Array Char) (c : Char) (lo hi : Nat) (hhi : hi ≤ cs.size) : Except Nat Nat :=
  if h : lo < hi then
    let mid := lo + (hi - lo) / 2
    if cs[mid] = c then .ok mid
    else if cs[mid] < c then search cs c (mid + 1) hi hhi
    else search cs c lo mid (by omega)
  else .error lo
termination_by hi - lo

/-- The characters before the index are smaller, and those from there on are larger. -/
structure Belongs (cs : Array Char) (c : Char) (i : Nat) : Prop where
  le_size : i ≤ cs.size
  before : ∀ j (h : j < cs.size), j < i → cs[j] < c
  after : ∀ j (h : j < cs.size), i ≤ j → c < cs[j]

theorem lt_of_ascending (hcs : cs.toList.Pairwise (· < ·)) {j : Nat} (hj : j < cs.size)
    (hij : i < j) : cs[i] < cs[j] :=
  List.pairwise_iff_getElem.1 hcs i j (Nat.lt_trans hij hj) hj hij

theorem search_ok {hhi : hi ≤ cs.size} (h : search cs c lo hi hhi = .ok i) : c ∈ cs := by
  fun_induction search cs c lo hi hhi with
  | case1 lo hi hhi hlt mid heq => exact heq ▸ Array.getElem_mem _
  | case2 lo hi hhi hlt mid hne hless ih => exact ih h
  | case3 lo hi hhi hlt mid hne hless ih => exact ih h
  | case4 => cases h

/-- What is outside of the searched part is smaller before it and larger behind it. -/
theorem search_error (hcs : cs.toList.Pairwise (· < ·)) {hhi : hi ≤ cs.size} (hle : lo ≤ hi)
    (before : ∀ j (h : j < cs.size), j < lo → cs[j] < c)
    (after : ∀ j (h : j < cs.size), hi ≤ j → c < cs[j])
    (h : search cs c lo hi hhi = .error i) : Belongs cs c i := by
  fun_induction search cs c lo hi hhi with
  | case1 => cases h
  | case2 lo hi hhi hlt mid hne hless ih =>
    refine ih (by omega) (fun j hj hjmid => ?_) after h
    obtain hjmid | rfl := Nat.lt_or_eq_of_le (Nat.le_of_lt_succ hjmid)
    · exact Char.lt_trans (lt_of_ascending hcs _ hjmid) hless
    · exact hless
  | case3 lo hi hhi hlt mid hne hless ih =>
    have hmid : c < cs[mid] := Char.not_le.1 fun hle =>
      hne (Char.le_antisymm hle (Char.not_lt.1 hless))
    refine ih (by omega) before (fun j hj hjmid => ?_) h
    obtain hjmid | rfl := Nat.lt_or_eq_of_le hjmid
    · exact Char.lt_trans hmid (lt_of_ascending hcs hj hjmid)
    · exact hmid
  | case4 lo hi hhi hlt =>
    cases h
    exact ⟨by omega, before, fun j hj hjlo => after j hj (by omega)⟩

theorem Belongs.not_mem (h : Belongs cs c i) : c ∉ cs := by
  intro hmem
  obtain ⟨j, hj, rfl⟩ := Array.mem_iff_getElem.1 hmem
  rcases Nat.lt_or_ge j i with hji | hji
  · exact Char.lt_irrefl _ (h.before j hj hji)
  · exact Char.lt_irrefl _ (h.after j hj hji)

theorem insertIdx_eq_append {l : List Char} (h : i ≤ l.length) :
    l.insertIdx i c = l.take i ++ c :: l.drop i := by
  induction i generalizing l with
  | zero => rfl
  | succ i ih =>
    cases l with
    | nil => cases h
    | cons d l =>
      rw [List.insertIdx_succ_cons, List.take_succ_cons, List.drop_succ_cons, List.cons_append,
        ih (Nat.le_of_succ_le_succ h)]

theorem Belongs.pairwise_insertIdx (h : Belongs cs c i) (hcs : cs.toList.Pairwise (· < ·)) :
    (cs.insertIdx i c h.le_size).toList.Pairwise (· < ·) := by
  have hbefore : ∀ d ∈ cs.toList.take i, d < c := by
    intro d hd
    obtain ⟨j, hj, rfl⟩ := List.mem_take_iff_getElem.1 hd
    exact h.before j (Nat.lt_min.1 hj).2 (Nat.lt_min.1 hj).1
  have hafter : ∀ d ∈ cs.toList.drop i, c < d := by
    intro d hd
    obtain ⟨j, hj, rfl⟩ := List.mem_drop_iff_getElem.1 hd
    exact h.after (i + j) (Nat.add_comm j i ▸ hj) (Nat.le_add_right i j)
  rw [← List.take_append_drop i cs.toList, List.pairwise_append] at hcs
  obtain ⟨htake, hdrop, hacross⟩ := hcs
  rw [Array.toList_insertIdx, insertIdx_eq_append h.le_size, List.pairwise_append,
    List.pairwise_cons]
  refine ⟨htake, ⟨hafter, hdrop⟩, fun a ha b hb => ?_⟩
  rcases List.mem_cons.1 hb with rfl | hb
  · exact hbefore a ha
  · exact hacross a ha b hb

/-! ## Sets -/

variable {s : SortedChars} {x : Char}

/-- No characters. -/
def empty : SortedChars := ⟨#[], .nil⟩

/-- The index of a character, or as an error the index where it belongs. -/
def find (s : SortedChars) (c : Char) : Except Nat Nat :=
  search s.chars c 0 s.chars.size (Nat.le_refl _)

theorem belongs_of_find (h : s.find c = .error i) : Belongs s.chars c i :=
  search_error s.ascending (Nat.zero_le _) (fun _ _ hj => nomatch hj)
    (fun _ hj hj' => absurd hj (Nat.not_lt.2 hj')) h

/-- The characters with one more in its place, unless it is there already. -/
def insert (s : SortedChars) (c : Char) : SortedChars :=
  match h : s.find c with
  | .ok _ => s
  | .error i =>
    ⟨s.chars.insertIdx i c (belongs_of_find h).le_size,
      (belongs_of_find h).pairwise_insertIdx s.ascending⟩

/-- The character is there. -/
def contains (s : SortedChars) (c : Char) : Bool := (s.find c).isOk

theorem contains_iff : s.contains c = true ↔ c ∈ s.chars := by
  unfold contains
  cases h : s.find c with
  | ok i => exact iff_of_true rfl (search_ok h)
  | error i => exact iff_of_false nofun (belongs_of_find h).not_mem

theorem mem_insert : x ∈ (s.insert c).chars ↔ x = c ∨ x ∈ s.chars := by
  unfold insert
  split
  · next h =>
    refine (or_iff_right_of_imp ?_).symm
    rintro rfl
    exact search_ok h
  · next h => exact Array.mem_insertIdx (h := (belongs_of_find h).le_size)

end SortedChars

end TokenTree
