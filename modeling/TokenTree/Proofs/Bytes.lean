import TokenTree.Proofs.Search

/-!
# Bytes of texts

Searches may go through the bytes of a text in place of its characters, and start at any byte, even
inside a character. This file shows that they find the same. No byte inside a character can start a
character (`Text.exists_drop_bytes`), and no character starts with the bytes of another one
(`Text.bytes_prefix_iff`). So an occurrence of the bytes of a mark is an occurrence of the mark,
between characters (`Text.findBytes_drop`), and an ASCII byte is an ASCII character
(`Text.findByte_drop`).
-/

namespace TokenTree

namespace Text

/-- The UTF-8 form of a text. -/
def bytes (t : Text) : List UInt8 := t.flatMap String.utf8EncodeChar

/-- The number of bytes before the first that is one of two ASCII characters. -/
def findByte (a b : Char) (bytes : List UInt8) : Option Nat :=
  bytes.findIdx? fun x => x == a.toUInt8 || x == b.toUInt8

/-- The number of bytes before the first occurrence of `mark`. -/
def findBytes (mark : List UInt8) : List UInt8 → Option Nat
  | [] => if mark.isEmpty then some 0 else none
  | b :: r => if mark.isPrefixOf (b :: r) then some 0 else (findBytes mark r).map (1 + ·)

/-! ## Characters as bytes -/

@[simp] theorem bytes_nil : bytes [] = [] := rfl

@[simp] theorem bytes_cons (c : Char) (t : Text) :
    bytes (c :: t) = String.utf8EncodeChar c ++ bytes t := List.flatMap_cons

@[simp] theorem bytes_append (s t : Text) : bytes (s ++ t) = bytes s ++ bytes t :=
  List.flatMap_append

@[simp] theorem length_bytes (t : Text) : (bytes t).length = size t := by
  induction t with
  | nil => rfl
  | cons c t ih => simp [ih]

/-- The first byte of a character tells that one starts, and none of the others does. -/
theorem exists_firstByte (c : Char) : ∃ b r, String.utf8EncodeChar c = b :: r ∧
    b.IsUTF8FirstByte ∧ ∀ x ∈ r, ¬ x.IsUTF8FirstByte := by
  have hfirst (i : Nat) (hi : i < (String.utf8EncodeChar c).length) :=
    @UInt8.isUTF8FirstByte_getElem_utf8EncodeChar c i hi
  cases hc : String.utf8EncodeChar c with
  | nil => exact absurd hc String.utf8EncodeChar_ne_nil
  | cons b r =>
    simp only [hc] at hfirst
    refine ⟨b, r, rfl, (hfirst 0 (by simp)).2 rfl, ?_⟩
    intro x hx hfirstByte
    obtain ⟨i, hi, rfl⟩ := List.getElem_of_mem hx
    have hzero := (hfirst (i + 1) (by simpa using hi)).1 hfirstByte
    omega

/-- No character starts with the bytes of another one. -/
theorem char_eq_of_bytes {c d : Char} {r s : List UInt8}
    (h : String.utf8EncodeChar c ++ r = String.utf8EncodeChar d ++ s) : c = d := by
  have hc := ByteArray.utf8DecodeChar?_utf8EncodeChar_append (b := r.toByteArray) (c := c)
  have hd := ByteArray.utf8DecodeChar?_utf8EncodeChar_append (b := s.toByteArray) (c := d)
  rw [← List.toByteArray_append] at hc hd
  rw [h, hd] at hc
  exact (Option.some.inj hc).symm

theorem bytes_prefix_iff {s t : Text} : bytes s <+: bytes t ↔ s <+: t := by
  constructor
  · intro h
    induction s generalizing t with
    | nil => exact List.nil_prefix
    | cons c s ih =>
      obtain ⟨r, hr⟩ := h
      cases t with
      | nil =>
        rw [bytes_cons, bytes_nil, List.append_assoc] at hr
        exact absurd (List.append_eq_nil_iff.1 hr).1 String.utf8EncodeChar_ne_nil
      | cons d t =>
        rw [bytes_cons, bytes_cons, List.append_assoc] at hr
        obtain rfl := char_eq_of_bytes hr
        exact List.cons_prefix_cons.2 ⟨rfl, ih ⟨r, List.append_cancel_left hr⟩⟩
  · rintro ⟨r, rfl⟩
    exact ⟨bytes r, (bytes_append s r).symm⟩

/-- From byte `n` on there are the bytes that are left of a character, and then those of the text
from the next character on. -/
theorem exists_drop_bytes {t : Text} {n : Nat} (h : n ≤ size t) :
    ∃ before rest tail, t = before ++ rest ∧ seek n t = (before.length, rest) ∧
      (bytes t).drop n = tail ++ bytes rest ∧ n + tail.length = size before ∧
      ∀ x ∈ tail, ¬ x.IsUTF8FirstByte := by
  obtain ⟨before, rest, ht, hseek, hle, hlt⟩ := exists_seek h
  rcases List.eq_nil_or_concat before with rfl | ⟨u, c, hu⟩
  · rw [size_nil, Nat.le_zero] at hle
    exact ⟨[], rest, [], ht, hseek, by rw [ht, hle]; rfl, hle, nofun⟩
  · -- the byte stands in `c`, behind its first one
    rw [List.concat_eq_append] at hu
    have hbehind := hlt u [c] hu (by simp)
    obtain ⟨b, r, hc, -, hr⟩ := exists_firstByte c
    have hsize : (b :: r).length = c.utf8Size := hc ▸ String.length_utf8EncodeChar c
    obtain ⟨k, hk⟩ : ∃ k, n = size u + (k + 1) := ⟨n - size u - 1, by omega⟩
    rw [hu, size_append, size_cons, size_nil, ← hsize, List.length_cons] at hle
    refine ⟨before, rest, r.drop k, ht, hseek, ?_, ?_, ?_⟩
    · have hkr : k ≤ r.length := by omega
      rw [ht, hu, hk, List.append_assoc, bytes_append, ← length_bytes, List.drop_length_add_append,
        List.singleton_append, bytes_cons, hc, List.cons_append, List.drop_succ_cons,
        List.drop_append_of_le_length hkr]
    · rw [hu, size_append, size_cons, size_nil, ← hsize, List.length_cons, List.length_drop]
      omega
    · intro x hx
      exact hr x (List.mem_of_mem_drop hx)

/-! ## Searching for a mark -/

theorem findBytes_inside {mark : Text} (hmark : mark ≠ []) {tail : List UInt8}
    (htail : ∀ x ∈ tail, ¬ x.IsUTF8FirstByte) (r : List UInt8) :
    findBytes (bytes mark) (tail ++ r) = (findBytes (bytes mark) r).map (tail.length + ·) := by
  induction tail with
  | nil => simp
  | cons x tail ih =>
    have habsent : ¬ bytes mark <+: x :: (tail ++ r) := by
      cases mark with
      | nil => exact absurd rfl hmark
      | cons c mark =>
        obtain ⟨b, s, hc, hb, -⟩ := exists_firstByte c
        rw [bytes_cons, hc, List.cons_append, List.cons_prefix_cons]
        rintro ⟨rfl, -⟩
        exact htail b List.mem_cons_self hb
    rw [List.cons_append, findBytes, if_neg (by rwa [List.isPrefixOf_iff_prefix]),
      ih fun y hy => htail y (List.mem_cons_of_mem x hy), Option.map_map, List.length_cons]
    congr 1
    funext n
    simp only [Function.comp_apply]
    omega

theorem endOf?_cons (c : Char) (t mark : Text) :
    endOf? (c :: t) mark =
      if mark <+: c :: t then some mark.length else (endOf? t mark).map (1 + ·) := by
  rw [endOf?, endOfFrom?, Nat.zero_add, endOfFrom?_add mark t 1 0]
  simp only [List.isPrefixOf_iff_prefix, endOf?]

theorem findBytes_bytes {mark : Text} (hmark : mark ≠ []) (t : Text) :
    (findBytes (bytes mark) (bytes t)).map (· + size mark) =
      (endOf? t mark).map fun n => size (t.take n) := by
  induction t with
  | nil =>
    cases mark with
    | nil => exact absurd rfl hmark
    | cons c mark =>
      obtain ⟨b, s, hc, -, -⟩ := exists_firstByte c
      simp [findBytes, endOf?, endOfFrom?, hc]
  | cons c t ih =>
    obtain ⟨b, r, hc, -, hr⟩ := exists_firstByte c
    have hsize : (b :: r).length = c.utf8Size := hc ▸ String.length_utf8EncodeChar c
    have hbytes : bytes (c :: t) = b :: (r ++ bytes t) := by rw [bytes_cons, hc, List.cons_append]
    rw [endOf?_cons, hbytes, findBytes, ← hbytes]
    simp only [List.isPrefixOf_iff_prefix, bytes_prefix_iff]
    split
    · next hp =>
      obtain ⟨s, hs⟩ := hp
      rw [← hs, Option.map_some, Option.map_some, List.take_left, Nat.zero_add]
    · rw [findBytes_inside hmark hr, Option.map_map, Option.map_map, Option.map_map]
      have hshift (n : Nat) : 1 + (r.length + n) + size mark = c.utf8Size + (n + size mark) := by
        rw [← hsize, List.length_cons]
        omega
      have htake (n : Nat) : size ((c :: t).take (1 + n)) = c.utf8Size + size (t.take n) := by
        rw [Nat.add_comm 1 n, List.take_succ_cons, size_cons]
      have hmap := congrArg (Option.map (c.utf8Size + ·)) ih
      rw [Option.map_map, Option.map_map] at hmap
      simp only [Function.comp_def, hshift, htake] at hmap ⊢
      exact hmap

/-- The first occurrence of the bytes of a mark from any byte on is the first one of the mark from
the next character on. -/
theorem findBytes_drop {mark t : Text} {n : Nat} (hmark : mark ≠ []) (h : n ≤ size t) :
    (findBytes (bytes mark) ((bytes t).drop n)).map (fun found => n + found + size mark) =
      (endOf? (t.seek n).2 mark).map fun count => size (t.take ((t.seek n).1 + count)) := by
  obtain ⟨before, rest, tail, ht, hseek, hdrop, hn, htail⟩ := exists_drop_bytes h
  have hfound := congrArg (Option.map (size before + ·)) (findBytes_bytes hmark rest)
  have hstop (count : Nat) :
      size (t.take (before.length + count)) = size before + size (rest.take count) := by
    rw [ht, List.take_length_add_append, size_append]
  have hshift (found : Nat) : n + (tail.length + found) + size mark =
      size before + (found + size mark) := by omega
  rw [hdrop, findBytes_inside hmark htail, hseek, Option.map_map]
  simp only [Option.map_map, Function.comp_def, hshift, hstop] at hfound ⊢
  exact hfound

/-! ## Searching for a character -/

/-- Neither of two characters is in the text, or one of them is the first. -/
theorem exists_first (a b : Char) (t : Text) :
    (∀ c ∈ t, c ≠ a ∧ c ≠ b) ∨
      ∃ u c v, t = u ++ c :: v ∧ (∀ x ∈ u, x ≠ a ∧ x ≠ b) ∧ (c = a ∨ c = b) := by
  cases hfind : t.find? fun c => c == a || c == b with
  | none => exact Or.inl (by simpa using hfind)
  | some c =>
    obtain ⟨hc, u, v, ht, hu⟩ := List.find?_eq_some_iff_append.1 hfind
    exact Or.inr ⟨u, c, v, ht, by simpa using hu, by simpa using hc⟩

section

variable {a b : Char} (ha : a.utf8Size = 1) (hb : b.utf8Size = 1)

include ha in
theorem bytes_ascii : String.utf8EncodeChar a = [a.toUInt8] :=
  String.utf8EncodeChar_eq_singleton ha

include ha in
theorem isFirstByte_ascii : a.toUInt8.IsUTF8FirstByte := by
  obtain ⟨x, s, hx, hfirst, -⟩ := exists_firstByte a
  obtain ⟨rfl, -⟩ := List.cons.inj (hx.symm.trans (bytes_ascii ha))
  exact hfirst

include ha in
/-- An ASCII byte is only found where the character is. -/
theorem eq_of_mem_bytes {c : Char} (h : a.toUInt8 ∈ String.utf8EncodeChar c) : c = a := by
  obtain ⟨y, r, hy, -, hr⟩ := exists_firstByte c
  rw [hy] at h
  rcases List.mem_cons.1 h with rfl | h
  · have heq : String.utf8EncodeChar c ++ [] = String.utf8EncodeChar a ++ r := by
      rw [bytes_ascii ha, hy, List.append_nil, List.singleton_append]
    exact char_eq_of_bytes heq
  · exact absurd (isFirstByte_ascii ha) (hr _ h)

include ha hb in
theorem findByte_of_absent {t : Text} (h : ∀ c ∈ t, c ≠ a ∧ c ≠ b) :
    findByte a b (bytes t) = none := by
  refine List.findIdx?_eq_none_iff.2 fun x hx => ?_
  obtain ⟨c, hc, hx⟩ := List.mem_flatMap.1 hx
  have hxa : x ≠ a.toUInt8 := by
    rintro rfl
    exact (h c hc).1 (eq_of_mem_bytes ha hx)
  have hxb : x ≠ b.toUInt8 := by
    rintro rfl
    exact (h c hc).2 (eq_of_mem_bytes hb hx)
  simp [hxa, hxb]

include ha hb in
theorem findByte_of_first {u v : Text} {c : Char} (h : ∀ x ∈ u, x ≠ a ∧ x ≠ b)
    (hc : c = a ∨ c = b) : findByte a b (bytes (u ++ c :: v)) = some (size u) := by
  have habsent := findByte_of_absent ha hb h
  have hbyte : String.utf8EncodeChar c = [c.toUInt8] := by
    rcases hc with rfl | rfl
    · exact bytes_ascii ha
    · exact bytes_ascii hb
  unfold findByte at habsent ⊢
  rw [bytes_append, bytes_cons, List.findIdx?_append, habsent, hbyte, List.singleton_append,
    List.findIdx?_cons, length_bytes]
  rcases hc with rfl | rfl <;> simp

include ha hb in
theorem findByte_inside {tail : List UInt8} (htail : ∀ x ∈ tail, ¬ x.IsUTF8FirstByte)
    (r : List UInt8) : findByte a b (tail ++ r) = (findByte a b r).map (tail.length + ·) := by
  have habsent : tail.findIdx? (fun x => x == a.toUInt8 || x == b.toUInt8) = none := by
    refine List.findIdx?_eq_none_iff.2 fun x hx => ?_
    have hxa : x ≠ a.toUInt8 := fun heq => htail x hx (heq ▸ isFirstByte_ascii ha)
    have hxb : x ≠ b.toUInt8 := fun heq => htail x hx (heq ▸ isFirstByte_ascii hb)
    simp [hxa, hxb]
  unfold findByte
  rw [List.findIdx?_append, habsent, Option.none_or]
  simp only [Nat.add_comm]

include ha hb in
/-- The first of two ASCII characters among the bytes from any byte on is the first one in the text
from the next character on. -/
theorem findByte_drop {t : Text} {n : Nat} (h : n ≤ size t) :
    (findByte a b ((bytes t).drop n)).map (n + ·) =
      ((t.seek n).2.findIdx? fun c => c == a || c == b).map
        fun count => size (t.take ((t.seek n).1 + count)) := by
  obtain ⟨before, rest, tail, ht, hseek, hdrop, hn, htail⟩ := exists_drop_bytes h
  have hnone {u : Text} (h : ∀ c ∈ u, c ≠ a ∧ c ≠ b) :
      u.findIdx? (fun c => c == a || c == b) = none :=
    List.findIdx?_eq_none_iff.2 fun c hc => by simpa using h c hc
  rw [hdrop, findByte_inside ha hb htail, hseek]
  rcases exists_first a b rest with habsent | ⟨u, c, v, rfl, habsent, hc⟩
  · rw [findByte_of_absent ha hb habsent, hnone habsent]
    rfl
  · have hidx : (u ++ c :: v).findIdx? (fun c => c == a || c == b) = some u.length := by
      rw [List.findIdx?_append, hnone habsent, List.findIdx?_cons, if_pos (by simpa using hc)]
      simp
    rw [findByte_of_first ha hb habsent hc, hidx, ht, Option.map_some, Option.map_some,
      Option.map_some, List.take_length_add_append, List.take_left, size_append]
    congr 1
    omega

end

end Text

end TokenTree
