import TokenTree.Proofs.Bytes
import TokenTree.Proofs.Decoding

/-!
# Decoding undoes encoding

The bytes of a text are decoded to the text again, in every encoding that has bytes for all its
characters and however the bytes are cut into chunks (`Decoder.decodeEach_encode`). A cut may divide
a character, or a pair of surrogates and one of its units: no character is lost by it, and none is
replaced.

A chunked decoder makes of bytes what one chunk of them all would be decoded to, so what is left to
show is that the bytes of one character, whatever follows them, are read as that character
(`Utf8.first_encodeChar`, `Utf16.charsOnto_unitsOf`).
-/

namespace TokenTree

namespace Utf16

/-- The units of a character: one, or a pair of surrogates. -/
def unitsOf (c : Char) : List Nat :=
  if c.toNat < 0x10000 then [c.toNat]
  else [0xD800 + (c.toNat - 0x10000) / 0x400, 0xDC00 + (c.toNat - 0x10000) % 0x400]

/-- The bytes of a unit, the low one first or the high one. -/
def bytesOf (lowFirst : Bool) (u : Nat) : List UInt8 :=
  if lowFirst then [.ofNat (u % 0x100), .ofNat (u / 0x100)]
  else [.ofNat (u / 0x100), .ofNat (u % 0x100)]

/-- The bytes of a text, unit by unit. -/
def encode (lowFirst : Bool) (t : Text) : List UInt8 :=
  (t.flatMap unitsOf).flatMap (bytesOf lowFirst)

end Utf16

/-- The bytes of a text. In Latin-1 they are those of the text only if it has no character beyond
`0xFF`. -/
def Encoding.encode (encoding : Encoding) (t : Text) : List UInt8 :=
  match encoding with
  | .utf8 => Text.bytes t
  | .utf16le => Utf16.encode true t
  | .utf16be => Utf16.encode false t
  | .latin1 => t.map fun c => .ofNat c.toNat

theorem exists_byte {n : Nat} (h : n < 0x100) : ∃ b, UInt8.ofNat n = b ∧ b.toNat = n :=
  ⟨_, rfl, UInt8.toNat_ofNat_of_lt' h⟩

theorem toNat_valid (c : Char) : c.toNat < 0xD800 ∨ 0xDFFF < c.toNat ∧ c.toNat < 0x110000 :=
  c.valid

theorem ofNat_eq_of_toNat {c : Char} {n : Nat} (h : c.toNat = n) : Char.ofNat n = c :=
  h ▸ c.ofNat_toNat

/-! ## UTF-8 -/

namespace Utf8

variable {a b c d : UInt8} {rest : List UInt8}

theorem expect_cons {allowed : UInt8 → Bool} (h : allowed b = true) (more : Nat)
    (behind : UInt8 → List UInt8 → Reading) (rest : List UInt8) :
    expect allowed more behind (b :: rest) = behind b rest := by
  rw [expect, if_pos h]

theorem isContinuation_iff : isContinuation b = true ↔ 0x80 ≤ b.toNat ∧ b.toNat ≤ 0xBF := by
  simp [isContinuation, UInt8.le_iff_toNat_le]

/-- The limits of a second byte, in numbers. -/
theorem isSecond_iff :
    isSecond a b = true ↔ isContinuation b = true ∧ (a.toNat = 0xE0 → 0xA0 ≤ b.toNat) ∧
      (a.toNat = 0xED → b.toNat ≤ 0x9F) ∧ (a.toNat = 0xF0 → 0x90 ≤ b.toNat) ∧
      (a.toNat = 0xF4 → b.toNat ≤ 0x8F) := by
  simp only [isSecond, UInt8.le_iff_toNat_le, Bool.and_eq_true, Bool.or_eq_true, bne_iff_ne, ne_eq,
    decide_eq_true_eq, ← UInt8.toNat_inj, and_assoc, UInt8.reduceToNat]
  refine and_congr_right fun _ => ?_
  omega

theorem first_one (ha : a.toNat < 0x80) : first a rest = .char (.ofNat a.toNat) 0 := by
  have h1 : a < 0x80 := UInt8.lt_iff_toNat_lt.2 ha
  rw [first, if_pos h1]

theorem first_two (ha : 0xC2 ≤ a.toNat ∧ a.toNat ≤ 0xDF) (hb : isContinuation b = true) :
    first a (b :: rest) = .char (.ofNat (a.toNat % 0x20 * 0x40 + bits b)) 1 := by
  have h1 : ¬ a < 0x80 := by simp [UInt8.lt_iff_toNat_lt]; omega
  have h2 : leads2 a = true := by simpa [leads2, UInt8.le_iff_toNat_le] using ha
  rw [first, if_neg h1, if_pos h2, expect_cons hb]

theorem first_three (ha : 0xE0 ≤ a.toNat ∧ a.toNat ≤ 0xEF) (hb : isSecond a b = true)
    (hc : isContinuation c = true) :
    first a (b :: c :: rest) =
      .char (.ofNat ((a.toNat % 0x10 * 0x40 + bits b) * 0x40 + bits c)) 2 := by
  have h1 : ¬ a < 0x80 := by simp [UInt8.lt_iff_toNat_lt]; omega
  have h2 : ¬ leads2 a = true := by simp [leads2, UInt8.le_iff_toNat_le]; omega
  have h3 : leads3 a = true := by simpa [leads3, UInt8.le_iff_toNat_le] using ha
  rw [first, if_neg h1, if_neg h2, if_pos h3, expect_cons hb, expect_cons hc]

theorem first_four (ha : 0xF0 ≤ a.toNat ∧ a.toNat ≤ 0xF4) (hb : isSecond a b = true)
    (hc : isContinuation c = true) (hd : isContinuation d = true) :
    first a (b :: c :: d :: rest) =
      .char (.ofNat (((a.toNat % 0x08 * 0x40 + bits b) * 0x40 + bits c) * 0x40 + bits d)) 3 := by
  have h1 : ¬ a < 0x80 := by simp [UInt8.lt_iff_toNat_lt]; omega
  have h2 : ¬ leads2 a = true := by simp [leads2, UInt8.le_iff_toNat_le]; omega
  have h3 : ¬ leads3 a = true := by simp [leads3, UInt8.le_iff_toNat_le]; omega
  have h4 : leads4 a = true := by simpa [leads4, UInt8.le_iff_toNat_le] using ha
  rw [first, if_neg h1, if_neg h2, if_neg h3, if_pos h4, expect_cons hb, expect_cons hc,
    expect_cons hd]

/-- The continuation byte of six bits. -/
theorem exists_continuation {n : Nat} (h : n < 0x40) : ∃ b, UInt8.ofNat (n + 128) = b ∧
    b.toNat = n + 128 ∧ isContinuation b = true ∧ bits b = n := by
  obtain ⟨b, rfl, hb⟩ := exists_byte (n := n + 128) (by omega)
  refine ⟨_, rfl, hb, isContinuation_iff.2 (by omega), ?_⟩
  rw [bits, hb]
  omega

/-- The bytes of a character are read as the character, whatever follows them. -/
theorem first_encodeChar (c : Char) (rest : List UInt8) :
    ∃ a more, String.utf8EncodeChar c = a :: more ∧
      first a (more ++ rest) = .char c more.length := by
  have hvalid := toNat_valid c
  obtain ⟨x, hx, hxn, hxc, hxb⟩ := exists_continuation (n := c.toNat % 64) (by omega)
  obtain ⟨y, hy, hyn, hyc, hyb⟩ := exists_continuation (n := c.toNat / 64 % 64) (by omega)
  obtain ⟨z, hz, hzn, hzc, hzb⟩ := exists_continuation (n := c.toNat / 4096 % 64) (by omega)
  have hc : c.val.toNat = c.toNat := rfl
  rw [String.utf8EncodeChar, hc]
  simp only [hx, hy, hz]
  by_cases h1 : c.toNat ≤ 127
  · obtain ⟨a, ha, han⟩ := exists_byte (n := c.toNat) (by omega)
    rw [if_pos h1, ha]
    refine ⟨a, [], rfl, ?_⟩
    rw [first_one (by omega), ofNat_eq_of_toNat han.symm]
    rfl
  by_cases h2 : c.toNat ≤ 2047
  · obtain ⟨a, ha, han⟩ := exists_byte (n := c.toNat / 64 % 32 + 192) (by omega)
    rw [if_neg h1, if_pos h2, ha]
    have hchar : c.toNat = a.toNat % 0x20 * 0x40 + bits x := by omega
    refine ⟨a, [x], rfl, ?_⟩
    rw [List.singleton_append, first_two (by omega) hxc, ofNat_eq_of_toNat hchar]
    rfl
  by_cases h3 : c.toNat ≤ 65535
  · obtain ⟨a, ha, han⟩ := exists_byte (n := c.toNat / 4096 % 16 + 224) (by omega)
    -- surrogates, which the second byte excludes, are no characters
    have hsecond : isSecond a y = true := isSecond_iff.2 ⟨hyc, by omega⟩
    rw [if_neg h1, if_neg h2, if_pos h3, ha]
    have hchar : c.toNat = (a.toNat % 0x10 * 0x40 + bits y) * 0x40 + bits x := by omega
    refine ⟨a, [y, x], rfl, ?_⟩
    rw [List.cons_append, List.singleton_append, first_three (by omega) hsecond hxc,
      ofNat_eq_of_toNat hchar]
    rfl
  · obtain ⟨a, ha, han⟩ := exists_byte (n := c.toNat / 262144 % 8 + 240) (by omega)
    have hsecond : isSecond a z = true := isSecond_iff.2 ⟨hzc, by omega⟩
    rw [if_neg h1, if_neg h2, if_neg h3, ha]
    have hchar : c.toNat = ((a.toNat % 0x08 * 0x40 + bits z) * 0x40 + bits y) * 0x40 + bits x := by
      omega
    refine ⟨a, [z, y, x], rfl, ?_⟩
    rw [List.cons_append, List.cons_append, List.singleton_append,
      first_four (by omega) hsecond hyc hxc, ofNat_eq_of_toNat hchar]
    rfl

theorem decode_bytes (final : Bool) (out t : Text) :
    decode final out (Text.bytes t) = (out.reverse ++ t, []) := by
  induction t generalizing out with
  | nil => simp
  | cons c t ih =>
    obtain ⟨a, more, hbytes, hfirst⟩ := first_encodeChar c (Text.bytes t)
    rw [Text.bytes_cons, hbytes, List.cons_append, decode_of_char hfirst, List.drop_left, ih]
    simp

end Utf8

/-! ## UTF-16 -/

namespace Utf16

variable {lowFirst : Bool}

theorem lt_of_mem_unitsOf {c : Char} {u : Nat} (h : u ∈ unitsOf c) : u < 0x10000 := by
  have hvalid := toNat_valid c
  unfold unitsOf at h
  by_cases hone : c.toNat < 0x10000
  · rw [if_pos hone, List.mem_singleton] at h
    omega
  · rw [if_neg hone] at h
    rcases List.mem_cons.1 h with rfl | h
    · omega
    · rw [List.mem_singleton] at h
      omega

/-- A unit is read from its bytes. -/
theorem units_bytesOf {u : Nat} (h : u < 0x10000) (rest : List UInt8) :
    units lowFirst (bytesOf lowFirst u ++ rest) = u :: units lowFirst rest := by
  obtain ⟨high, hhigh, hhighNat⟩ := exists_byte (n := u / 0x100) (by omega)
  obtain ⟨low, hlow, hlowNat⟩ := exists_byte (n := u % 0x100) (by omega)
  cases lowFirst with
  | true =>
    have hunit : unit true low high = u := by
      rw [unit, if_pos rfl]
      omega
    rw [bytesOf, if_pos rfl, hhigh, hlow, List.cons_append, List.singleton_append, units_pair,
      hunit]
  | false =>
    have hunit : unit false high low = u := by
      rw [unit, if_neg Bool.false_ne_true]
      omega
    rw [bytesOf, if_neg Bool.false_ne_true, hhigh, hlow, List.cons_append, List.singleton_append,
      units_pair, hunit]

theorem length_bytesOf (lowFirst : Bool) (u : Nat) : (bytesOf lowFirst u).length = 2 := by
  cases lowFirst <;> rfl

theorem units_flatMap_bytesOf {us : List Nat} (h : ∀ u ∈ us, u < 0x10000) :
    units lowFirst (us.flatMap (bytesOf lowFirst)) = us ∧
      (us.flatMap (bytesOf lowFirst)).length % 2 = 0 := by
  induction us with
  | nil => exact ⟨rfl, rfl⟩
  | cons u us ih =>
    obtain ⟨hunits, heven⟩ := ih fun v hv => h v (List.mem_cons_of_mem _ hv)
    rw [List.flatMap_cons, units_bytesOf (h u List.mem_cons_self), hunits, List.length_append,
      length_bytesOf]
    exact ⟨rfl, by omega⟩

theorem charsOnto_cons {u : Nat} (h : isHigh u = false) (out : Text) (us : List Nat) :
    charsOnto out (u :: us) = charsOnto (lone u :: out) us := by
  cases us with
  | nil => rfl
  | cons v us => rw [charsOnto, if_neg (by simp [h])]

/-- The units of a character are read as the character, whatever follows them. -/
theorem charsOnto_unitsOf (c : Char) (out : Text) (us : List Nat) :
    charsOnto out (unitsOf c ++ us) = charsOnto (c :: out) us := by
  have hvalid := toNat_valid c
  unfold unitsOf
  by_cases hone : c.toNat < 0x10000
  · have hhigh : isHigh c.toNat = false := by
      simp only [isHigh, Bool.and_eq_false_iff, decide_eq_false_iff_not]
      omega
    have hlow : isLow c.toNat = false := by
      simp only [isLow, Bool.and_eq_false_iff, decide_eq_false_iff_not]
      omega
    have hlone : lone c.toNat = c := by
      rw [lone, hhigh, hlow]
      exact c.ofNat_toNat
    rw [if_pos hone, List.singleton_append, charsOnto_cons hhigh, hlone]
  · have hhigh : isHigh (0xD800 + (c.toNat - 0x10000) / 0x400) = true := by
      simp only [isHigh, Bool.and_eq_true, decide_eq_true_eq]
      omega
    have hlow : isLow (0xDC00 + (c.toNat - 0x10000) % 0x400) = true := by
      simp only [isLow, Bool.and_eq_true, decide_eq_true_eq]
      omega
    have hpair : pair (0xD800 + (c.toNat - 0x10000) / 0x400)
        (0xDC00 + (c.toNat - 0x10000) % 0x400) = c := ofNat_eq_of_toNat (by omega)
    rw [if_neg hone, List.cons_append, List.singleton_append, charsOnto,
      if_pos (Bool.and_eq_true_iff.2 ⟨hhigh, hlow⟩), hpair]

theorem charsOnto_flatMap_unitsOf (out t : Text) :
    charsOnto out (t.flatMap unitsOf) = t.reverse ++ out := by
  induction t generalizing out with
  | nil => rfl
  | cons c t ih => rw [List.flatMap_cons, charsOnto_unitsOf, ih, List.reverse_cons,
      List.append_assoc, List.singleton_append]

theorem decode_encode (lowFirst : Bool) (t : Text) :
    decode lowFirst true (encode lowFirst t) = (t, []) := by
  have hlt : ∀ u ∈ t.flatMap unitsOf, u < 0x10000 := by
    intro u hu
    obtain ⟨c, -, hc⟩ := List.mem_flatMap.1 hu
    exact lt_of_mem_unitsOf hc
  obtain ⟨hunits, heven⟩ := @units_flatMap_bytesOf lowFirst _ hlt
  rw [decode_true, encode, hunits, charsOnto_flatMap_unitsOf, if_neg (by omega)]
  simp

end Utf16

/-! ## All encodings -/

namespace Decoder

theorem decodeBytes_encode {encoding : Encoding} {t : Text}
    (ht : encoding = .latin1 → ∀ c ∈ t, c.toNat ≤ 0xFF) :
    decodeBytes encoding true (encoding.encode t) = (t, []) := by
  cases encoding with
  | utf8 => exact Utf8.decode_bytes true [] t
  | utf16le => exact Utf16.decode_encode true t
  | utf16be => exact Utf16.decode_encode false t
  | latin1 =>
    have hchars : (t.map fun c => UInt8.ofNat c.toNat).map (fun b => Char.ofNat b.toNat) = t := by
      rw [List.map_map]
      refine (List.map_congr_left fun c hc => ?_).trans t.map_id
      obtain ⟨b, hb, hnat⟩ := exists_byte (Nat.lt_succ_of_le (ht rfl c hc))
      show Char.ofNat (UInt8.ofNat c.toNat).toNat = c
      rw [hb, hnat]
      exact c.ofNat_toNat
    exact congrArg (·, []) hchars

/-- The bytes of a text are decoded to the text, however they are cut into chunks. In Latin-1 that
holds of the texts that it has bytes for. -/
theorem decodeEach_encode {encoding : Encoding} {t : Text}
    (ht : encoding = .latin1 → ∀ c ∈ t, c.toNat ≤ 0xFF) {chunks : List (List UInt8)}
    {last : List UInt8} (hbytes : chunks.flatten ++ last = encoding.encode t) :
    let fresh := ofEncoding encoding
    let between := (fresh.decodeEach chunks).2
    (fresh.decodeEach chunks).1 ++ (between.decode last true).1 = t := by
  intro fresh between
  have hwhole : (fresh.decode (encoding.encode t) true).1 =
      (fresh.decodeEach chunks).1 ++ (between.decode last true).1 := by
    rw [← hbytes, decodeEach_decode]
  rw [← hwhole]
  exact congrArg Prod.fst (decodeBytes_encode ht)

/-- A pair of surrogates that is cut inside its second unit, and a letter of Latin-1. -/
theorem decodeEach_encode_pair :
    let chunks : List (List UInt8) := [[0xE9], [0x00, 0x34, 0xD8, 0x1E]]
    let between := (ofEncoding .utf16le).decodeEach chunks
    (Encoding.utf16le = .latin1 → ∀ c ∈ ['é', '𝄞'], c.toNat ≤ 0xFF) ∧
      chunks.flatten ++ [0xDD] = Encoding.utf16le.encode ['é', '𝄞'] ∧
      between.1 ++ (between.2.decode [0xDD] true).1 = ['é', '𝄞'] ∧
      (Encoding.latin1 = .latin1 → ∀ c ∈ ['é'], c.toNat ≤ 0xFF) ∧
      [[]].flatten ++ [0xE9] = Encoding.latin1.encode ['é'] ∧
      ((ofEncoding .latin1).decodeEach [[]]).1 ++
        (((ofEncoding .latin1).decodeEach [[]]).2.decode [0xE9] true).1 = ['é'] := by
  intro chunks between
  have hpair : Encoding.utf16le = .latin1 → ∀ c ∈ ['é', '𝄞'], c.toNat ≤ 0xFF := nofun
  have hbytes : chunks.flatten ++ [0xDD] = Encoding.utf16le.encode ['é', '𝄞'] := by decide
  have hletter : Encoding.latin1 = .latin1 → ∀ c ∈ ['é'], c.toNat ≤ 0xFF := by
    intro _ c hc
    rw [List.mem_singleton.1 hc]
    decide
  have hbyte : [[]].flatten ++ [0xE9] = Encoding.latin1.encode ['é'] := by decide
  exact ⟨hpair, hbytes, decodeEach_encode hpair hbytes, hletter, hbyte,
    decodeEach_encode hletter hbyte⟩

end Decoder

end TokenTree
