import Mathlib.Data.List.Dedup
import TokenTree.SymbolSet

/-!
# Symbol sets are sets

A symbol set is what its members are: however the characters of a list are put into a set, one after
another, some of them again, the set has them for its members, lists them in ascending order
(`SymbolSet.pairwise_chars`) and counts them (`SymbolSet.length_chars`). Sets with the same members
are equal (`SymbolSet.ext_contains`), as neither the bits of their masks nor the order of their other
members leaves a choice.
-/

namespace TokenTree

/-! ## Counting bits -/

namespace AsciiMask

variable {m : AsciiMask} {n k : Nat}

theorem cpopNatRec_eq_countP (x : BitVec n) (k : Nat) :
    x.cpopNatRec k 0 = (List.range k).countP x.getLsbD := by
  induction k with
  | zero => rfl
  | succ k ih =>
    rw [BitVec.cpopNatRec_succ, BitVec.cpopNatRec_add, ih, List.range_succ, List.countP_append,
      List.countP_singleton]
    cases x.getLsbD k <;> rfl

theorem size_eq_add :
    m.size = (List.range 64).countP m.words[0].toBitVec.getLsbD +
      (List.range 64).countP m.words[1].toBitVec.getLsbD := by
  have hwords : m.words.toList = [m.words[0], m.words[1]] := by
    refine List.ext_getElem (by simp) fun i _ hi => ?_
    match i with
    | 0 | 1 => simp
  rw [size, ← Vector.foldl_toList, hwords, List.foldl_cons, List.foldl_cons, List.foldl_nil,
    Nat.zero_add, BitVec.toNat_cpop, BitVec.toNat_cpop, cpopNatRec_eq_countP, cpopNatRec_eq_countP]

/-- The bits of the two words are those of the 128 characters. -/
theorem size_eq_countP {p : Nat → Bool} (hp : ∀ a : Fin 128, p a = m.contains a) :
    m.size = (List.range 128).countP p := by
  have hword (i j : Nat) (hi : i < 2) (hj : j < 64) :
      m.words[i].toBitVec.getLsbD j = p (64 * i + j) := by
    have hdiv : (64 * i + j) / 64 = i := by omega
    have hmod : (64 * i + j) % 64 = j := by omega
    simp only [hp ⟨64 * i + j, by omega⟩, contains_eq_getLsbD, hdiv, hmod]
  have hfirst : (List.range 64).countP m.words[0].toBitVec.getLsbD = (List.range 64).countP p := by
    refine List.countP_congr fun j hj => ?_
    rw [hword 0 j (by decide) (List.mem_range.1 hj), Nat.mul_zero, Nat.zero_add]
  have hsecond : (List.range 64).countP m.words[1].toBitVec.getLsbD =
      ((List.range 64).map (64 + ·)).countP p := by
    rw [List.countP_map]
    refine List.countP_congr fun j hj => ?_
    rw [hword 1 j (by decide) (List.mem_range.1 hj)]
    rfl
  rw [size_eq_add, hfirst, hsecond, ← List.countP_append, ← List.range_add]

end AsciiMask

/-! ## Ascending order -/

theorem eq_of_ascending {l l' : List Char} (hl : l.Pairwise (· < ·)) (hl' : l'.Pairwise (· < ·))
    (h : ∀ c, c ∈ l ↔ c ∈ l') : l = l' := by
  have hperm : l.Perm l' := (List.perm_ext_iff_of_nodup hl.nodup hl'.nodup).2 h
  refine hperm.eq_of_pairwise (fun a b _ _ hab hba => ?_) hl hl'
  exact absurd hba (Char.lt_asymm hab)

theorem SortedChars.ext_mem {s t : SortedChars} (h : ∀ c, c ∈ s.chars ↔ c ∈ t.chars) : s = t := by
  obtain ⟨chars, hs⟩ := s
  obtain ⟨chars', ht⟩ := t
  congr 1
  refine Array.toList_inj.1 (eq_of_ascending hs ht fun c => ?_)
  rw [Array.mem_toList_iff, Array.mem_toList_iff]
  exact h c

namespace SymbolSet

variable {s t : SymbolSet} {c : Char} {l : List Char}

theorem mem_other : c ∈ s.other.chars ↔ s.contains c = true ∧ ¬ c.toNat < 128 := by
  rw [contains]
  split
  · next hc => exact iff_of_false (fun h => s.not_ascii c h hc) fun h => h.2 hc
  · next hc => rw [SortedChars.contains_iff, and_iff_left hc]

theorem contains_ofNat (a : Fin 128) : s.contains (Char.ofNat a) = s.ascii.contains a := by
  have hcode := toNat_ofNat a.isLt
  have hc : (Char.ofNat a).toNat < 128 := by rw [hcode]; exact a.isLt
  rw [contains, dif_pos hc]
  congr 1
  exact Fin.ext hcode

/-- The members are listed in ascending order: the codes of ASCII characters are smaller than those
of others. -/
theorem pairwise_chars (s : SymbolSet) : s.chars.Pairwise (· < ·) := by
  rw [chars, List.pairwise_append]
  refine ⟨List.Pairwise.filter _ ?_, s.other.ascending, fun a ha b hb => ?_⟩
  · rw [List.pairwise_map]
    refine List.Pairwise.imp_of_mem (fun {i j} hi hj hij => ?_) List.pairwise_lt_range
    rw [Char.lt_def, UInt32.lt_iff_toNat_lt]
    show (Char.ofNat i).toNat < (Char.ofNat j).toNat
    rwa [toNat_ofNat (List.mem_range.1 hi), toNat_ofNat (List.mem_range.1 hj)]
  · have ha : a.toNat < 128 := mem_ascii.1 (List.mem_of_mem_filter ha)
    have hb : ¬ b.toNat < 128 := s.not_ascii b (Array.mem_toList_iff.1 hb)
    rw [Char.lt_def, UInt32.lt_iff_toNat_lt]
    exact Nat.lt_of_lt_of_le ha (Nat.not_lt.1 hb)

theorem length_chars (s : SymbolSet) : s.chars.length = s.size := by
  have hascii : s.ascii.size = (List.range 128).countP fun i => s.contains (Char.ofNat i) :=
    AsciiMask.size_eq_countP contains_ofNat
  rw [chars, size, List.length_append, ← List.countP_eq_length_filter, List.countP_map, hascii]
  rfl

/-- Sets with the same members are equal. -/
theorem ext_contains (h : ∀ c, s.contains c = t.contains c) : s = t := by
  have hascii : s.ascii = t.ascii := by
    refine AsciiMask.ext_contains fun a => ?_
    rw [← contains_ofNat, ← contains_ofNat, h]
  have hother : s.other = t.other := by
    refine SortedChars.ext_mem fun c => ?_
    rw [mem_other, mem_other, h]
  obtain ⟨ascii, other, _⟩ := s
  obtain ⟨ascii', other', _⟩ := t
  cases hascii
  cases hother
  rfl

theorem size_ofList (l : List Char) : (ofList l).size = l.dedup.length := by
  rw [← length_chars]
  refine List.Perm.length_eq ?_
  rw [List.perm_ext_iff_of_nodup (pairwise_chars _).nodup l.nodup_dedup]
  intro c
  rw [← contains_iff, contains_ofList, List.mem_dedup]

theorem ofList_eq_ofList_iff {l' : List Char} : ofList l = ofList l' ↔ ∀ c, c ∈ l ↔ c ∈ l' := by
  constructor
  · intro h c
    rw [← contains_ofList, h, contains_ofList]
  · intro h
    refine ext_contains fun c => ?_
    rw [Bool.eq_iff_iff, contains_ofList, contains_ofList, h]

/-- What the set of the characters of a list has, lists and counts are these characters, and it is
the set of every list that has the same characters. Those that are not ASCII are kept in ascending
order. -/
theorem ofList_canonical (l : List Char) :
    (∀ c, (ofList l).contains c = true ↔ c ∈ l) ∧
    (∀ c, c ∈ (ofList l).chars ↔ c ∈ l) ∧ (ofList l).chars.Pairwise (· < ·) ∧
    (ofList l).size = l.dedup.length ∧ ((ofList l).isEmpty = true ↔ l = []) ∧
    (∀ l', ofList l = ofList l' ↔ ∀ c, c ∈ l ↔ c ∈ l') ∧
    (∀ c, c ∈ (ofList l).other.chars ↔ c ∈ l ∧ ¬ c.toNat < 128) ∧
    (ofList l).other.chars.toList.Pairwise (· < ·) := by
  refine ⟨fun c => contains_ofList, fun c => ?_, pairwise_chars _, size_ofList l, ?_,
    fun l' => ofList_eq_ofList_iff, fun c => ?_, (ofList l).other.ascending⟩
  · rw [← contains_iff, contains_ofList]
  · rw [isEmpty, beq_iff_eq, size_ofList, List.length_eq_zero_iff, List.dedup_eq_nil]
  · rw [mem_other, contains_ofList]

example : (ofList ['λ', '=', '→', '+', '=']).chars = ['+', '=', 'λ', '→'] := by
  decide +kernel

end SymbolSet

end TokenTree
