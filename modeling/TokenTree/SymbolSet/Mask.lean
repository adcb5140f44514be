/-!
# ASCII masks

A set of ASCII characters is kept as 128 bits in two words. A character is put into the set by
setting its bit, looked for by testing it, and the members are counted by counting bits.
-/

namespace TokenTree

/-- A set of ASCII characters, which are given by their codes. -/
structure AsciiMask where
  /-- The bits, those of the first 64 characters in the first word. -/
  words : Vector UInt64 2
  deriving DecidableEq

namespace AsciiMask

variable {m : AsciiMask} {a b : Fin 128}

/-- The bit of a character in its word. -/
def bit (a : Fin 128) : UInt64 := 1 <<< (a.val % 64).toUInt64

/-- The set without members. -/
def empty : AsciiMask := ⟨.replicate 2 0⟩

/-- The set with one more member. -/
def insert (m : AsciiMask) (a : Fin 128) : AsciiMask :=
  ⟨m.words.set (a / 64) (m.words[a.val / 64] ||| bit a)⟩

/-- The character is a member. -/
def contains (m : AsciiMask) (a : Fin 128) : Bool := m.words[a.val / 64] &&& bit a != 0

/-- The number of members. -/
def size (m : AsciiMask) : Nat := m.words.foldl (fun n word => n + word.toBitVec.cpop.toNat) 0

/-! ## Bits -/

theorem toBitVec_bit : (bit a).toBitVec = .twoPow 64 (a % 64) := by
  have hshift : ((a.val % 64).toUInt64.toBitVec % 64).toNat = a % 64 := by simp
  rw [bit, UInt64.toBitVec_shiftLeft, BitVec.twoPow_eq, BitVec.shiftLeft_eq', hshift]
  rfl

theorem getLsbD_bit {i : Nat} : (bit a).toBitVec.getLsbD i = decide (a % 64 = i) := by
  rw [toBitVec_bit, BitVec.getLsbD_twoPow, decide_eq_true (Nat.mod_lt _ (by decide)),
    Bool.true_and]

/-- A character is looked for by testing its bit. -/
theorem contains_eq_getLsbD : m.contains a = m.words[a.val / 64].toBitVec.getLsbD (a % 64) := by
  rw [contains, Bool.eq_iff_iff, bne_iff_ne, ne_eq, ← UInt64.toBitVec_inj, UInt64.toBitVec_and,
    toBitVec_bit, BitVec.and_twoPow]
  split
  · next h =>
    rw [h]
    refine iff_of_true (fun hzero => ?_) rfl
    have hbit := congrArg (BitVec.getLsbD · (a % 64)) hzero
    rw [← toBitVec_bit] at hbit
    simp [getLsbD_bit] at hbit
  · next h => exact iff_of_false (fun hne => hne rfl) h

theorem contains_empty : empty.contains a = false := by
  rw [contains_eq_getLsbD]
  simp [empty]

theorem contains_insert : (m.insert a).contains b = (decide (b = a) || m.contains b) := by
  rw [contains_eq_getLsbD, contains_eq_getLsbD]
  simp only [insert, Vector.getElem_set]
  split
  · next hword =>
    have hcode : b = a ↔ a.val % 64 = b.val % 64 := by omega
    simp only [hword, UInt64.toBitVec_or, BitVec.getLsbD_or, getLsbD_bit, hcode, Bool.or_comm]
  · next hword =>
    have hne : b ≠ a := fun h => hword (h ▸ rfl)
    rw [decide_eq_false hne, Bool.false_or]

/-- Masks with the same members are equal. -/
theorem ext_contains {n : AsciiMask} (h : ∀ a, m.contains a = n.contains a) : m = n := by
  obtain ⟨words⟩ := m
  obtain ⟨words'⟩ := n
  congr 1
  refine Vector.ext fun i hi => ?_
  rw [← UInt64.toBitVec_inj]
  refine BitVec.eq_of_getLsbD_eq fun j hj => ?_
  -- the character whose bit is bit `j` of word `i`
  have hcode := h ⟨64 * i + j, by omega⟩
  have hword : (64 * i + j) / 64 = i := by omega
  have hbit : (64 * i + j) % 64 = j := by omega
  simpa only [contains_eq_getLsbD, hword, hbit] using hcode

end AsciiMask

end TokenTree
