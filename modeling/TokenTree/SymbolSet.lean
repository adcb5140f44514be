import TokenTree.SymbolSet.Mask
import TokenTree.SymbolSet.Sorted

/-!
# Symbol sets

The set of characters that a configuration makes tokens of their own. The members that are ASCII
characters are bits of a mask, and the others are kept in ascending order.
-/

namespace TokenTree

/-- A finite set of characters. -/
structure SymbolSet where
  /-- The members that are ASCII characters. -/
  ascii : AsciiMask
  /-- The other members. -/
  other : SortedChars
  /-- ASCII characters are members by the mask only. -/
  not_ascii : ∀ c ∈ other.chars, ¬ c.toNat < 128
  deriving DecidableEq

namespace SymbolSet

variable {s : SymbolSet} {c x : Char} {l : List Char}

/-- The set without members. -/
def empty : SymbolSet := ⟨.empty, .empty, nofun⟩

/-- The set with one more member. -/
def insert (s : SymbolSet) (c : Char) : SymbolSet :=
  if h : c.toNat < 128 then { s with ascii := s.ascii.insert ⟨c.toNat, h⟩ }
  else
    { s with
      other := s.other.insert c
      not_ascii := fun x hx => (SortedChars.mem_insert.1 hx).elim (· ▸ h) (s.not_ascii x) }

/-- The set of the characters of a list. -/
def ofList (l : List Char) : SymbolSet := l.foldl insert empty

/-- The character is a member. -/
def contains (s : SymbolSet) (c : Char) : Bool :=
  if h : c.toNat < 128 then s.ascii.contains ⟨c.toNat, h⟩ else s.other.contains c

/-- The members in ascending order. -/
def chars (s : SymbolSet) : List Char :=
  ((List.range 128).map Char.ofNat).filter s.contains ++ s.other.chars.toList

/-- The number of members. -/
def size (s : SymbolSet) : Nat := s.ascii.size + s.other.chars.size

/-- The set has no member. -/
def isEmpty (s : SymbolSet) : Bool := s.size == 0

theorem contains_insert : (s.insert c).contains x = true ↔ x = c ∨ s.contains x = true := by
  unfold insert contains
  split
  · next hc =>
    split
    · next hx =>
      rw [AsciiMask.contains_insert, Bool.or_eq_true, decide_eq_true_eq, Fin.mk.injEq,
        Char.toNat_inj]
    · next hx =>
      refine (or_iff_right ?_).symm
      rintro rfl
      exact hx hc
  · next hc =>
    split
    · next hx =>
      refine (or_iff_right ?_).symm
      rintro rfl
      exact hc hx
    · next hx => rw [SortedChars.contains_iff, SortedChars.contains_iff, SortedChars.mem_insert]

theorem not_contains_empty : ¬ empty.contains c = true := by
  unfold contains
  split
  · exact Bool.eq_false_iff.1 AsciiMask.contains_empty
  · exact fun h => nomatch SortedChars.contains_iff.1 h

theorem contains_ofList : (ofList l).contains c = true ↔ c ∈ l := by
  have onto (s : SymbolSet) : (l.foldl insert s).contains c = true ↔ c ∈ l ∨ s.contains c = true := by
    induction l generalizing s with
    | nil => simp
    | cons d l ih =>
      rw [List.foldl_cons, ih, contains_insert, List.mem_cons, or_left_comm, or_assoc]
  exact (onto empty).trans (or_iff_left not_contains_empty)

theorem toNat_ofNat {i : Nat} (h : i < 128) : (Char.ofNat i).toNat = i := by
  rw [Char.ofNat, dif_pos (Or.inl (Nat.lt_trans h (by decide)))]
  rfl

theorem mem_ascii : c ∈ (List.range 128).map Char.ofNat ↔ c.toNat < 128 := by
  rw [List.mem_map]
  constructor
  · rintro ⟨i, hi, rfl⟩
    rw [toNat_ofNat (List.mem_range.1 hi)]
    exact List.mem_range.1 hi
  · intro hc
    exact ⟨c.toNat, List.mem_range.2 hc, Char.ofNat_toNat c⟩

theorem contains_iff : s.contains c = true ↔ c ∈ s.chars := by
  rw [chars, List.mem_append, List.mem_filter, mem_ascii, Array.mem_toList_iff]
  by_cases hc : c.toNat < 128
  · have hother : c ∉ s.other.chars := fun hmem => s.not_ascii c hmem hc
    rw [or_iff_left hother, and_iff_right hc]
  · rw [or_iff_right fun h => hc h.1, contains, dif_neg hc, SortedChars.contains_iff]

end SymbolSet

end TokenTree
