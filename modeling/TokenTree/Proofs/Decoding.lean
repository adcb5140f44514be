import TokenTree.Encoding.Decoder

/-!
# Decoding in chunks

Bytes are decoded to the same text however they are cut into chunks, whether they are well-formed or
not (`Decoder.decodeEach_eq_decode`). What is held between two chunks is the beginning of something
whose end decides what it is, and so the second chunk, read behind it, is decoded as it would be
in one chunk of both (`Decoder.decode_append`).

In UTF-8 the first character of an input is settled as soon as it is not the whole input
(`Utf8.first_settles`), and bytes are decoded one settled character after the other. In UTF-16 only
a high surrogate asks for what follows it (`Utf16.charsOnto_append`).
-/

namespace TokenTree

namespace Utf8

/-! ## First characters -/

/-- The number of bytes behind the first that are read. -/
def Reading.more : Reading → Nat
  | char _ more => more
  | malformed more => more
  | incomplete => 0

/-- The bytes of a character that are still to be read, at most `missing` of them behind `more` that
are read, settle it whatever follows them. -/
structure Settles (more missing : Nat) (read : List UInt8 → Reading) : Prop where
  append : ∀ rest behind, read rest ≠ .incomplete → read (rest ++ behind) = read rest
  more_le : ∀ rest, (read rest).more ≤ more + rest.length
  short : ∀ rest, read rest = .incomplete → rest.length < missing

theorem settles_of_settled {more missing : Nat} {r : Reading} (hr : r ≠ .incomplete)
    (hmore : r.more ≤ more) : Settles more missing fun _ => r where
  append := fun _ _ _ => rfl
  more_le := fun _ => Nat.le_trans hmore (Nat.le_add_right _ _)
  short := fun _ h => absurd h hr

/-- A byte that is expected settles the character itself, or leaves it to those behind it. -/
theorem Settles.expect {more missing : Nat} {allowed : UInt8 → Bool}
    {behind : UInt8 → List UInt8 → Reading} (h : ∀ b, Settles (more + 1) missing (behind b)) :
    Settles more (missing + 1) (expect allowed more behind) := by
  refine ⟨?_, ?_, ?_⟩
  · intro rest after hsettled
    cases rest with
    | nil => exact absurd rfl hsettled
    | cons b rest =>
      rw [List.cons_append, Utf8.expect, Utf8.expect]
      rw [Utf8.expect] at hsettled
      by_cases hb : allowed b = true
      · rw [if_pos hb] at hsettled
        rw [if_pos hb, if_pos hb, (h b).append rest after hsettled]
      · rw [if_neg hb, if_neg hb]
  · intro rest
    cases rest with
    | nil => exact Nat.zero_le _
    | cons b rest =>
      rw [Utf8.expect, List.length_cons]
      by_cases hb : allowed b = true
      · have hle := (h b).more_le rest
        rw [if_pos hb]
        omega
      · rw [if_neg hb]
        exact Nat.le_add_right _ _
  · intro rest hincomplete
    cases rest with
    | nil => exact Nat.succ_pos missing
    | cons b rest =>
      rw [Utf8.expect] at hincomplete
      by_cases hb : allowed b = true
      · rw [if_pos hb] at hincomplete
        exact Nat.succ_lt_succ ((h b).short rest hincomplete)
      · rw [if_neg hb] at hincomplete
        cases hincomplete

/-- At most four bytes settle the first character. -/
theorem first_settles (a : UInt8) : Settles 0 3 (first a) := by
  unfold first
  by_cases h1 : a < 0x80
  · simp only [if_pos h1]
    exact settles_of_settled nofun (Nat.le_refl _)
  simp only [if_neg h1]
  by_cases h2 : leads2 a = true
  · simp only [if_pos h2]
    exact .expect fun b => settles_of_settled nofun (Nat.le_refl _)
  simp only [if_neg h2]
  by_cases h3 : leads3 a = true
  · simp only [if_pos h3]
    exact .expect fun b => .expect fun c => settles_of_settled nofun (Nat.le_refl _)
  simp only [if_neg h3]
  by_cases h4 : leads4 a = true
  · simp only [if_pos h4]
    exact .expect fun b => .expect fun c => .expect fun d =>
      settles_of_settled nofun (Nat.le_refl _)
  · simp only [if_neg h4]
    exact settles_of_settled nofun (Nat.le_refl _)

/-! ## One character after the other -/

/-- What a check finds of bytes that follow a text. -/
def Check.behind (before : Text) : Check → Check
  | whole text => .whole (before ++ text)
  | malformed text rest => .malformed (before ++ text) rest
  | incomplete text rest => .incomplete (before ++ text) rest

theorem check_eq (seen : Text) (bytes : List UInt8) :
    check seen bytes = (check [] bytes).behind seen.reverse := by
  induction hlen : bytes.length using Nat.strongRecOn generalizing seen bytes with
  | _ n ih =>
    cases bytes with
    | nil => rw [check, check, Check.behind, List.reverse_nil, List.append_nil]
    | cons a rest =>
      rw [check, check]
      cases hfirst : first a rest with
      | char c more =>
        have hlt : (rest.drop more).length < n := by
          rw [← hlen, List.length_drop, List.length_cons]
          omega
        simp only
        rw [ih _ hlt (c :: seen) _ rfl, ih _ hlt [c] _ rfl, List.reverse_cons]
        cases check [] (rest.drop more) <;> simp [Check.behind]
      | malformed more => simp [Check.behind]
      | incomplete => simp [Check.behind]

/-- What decoding makes of a check. -/
def conclude (final : Bool) (out : Text) : Check → Text × List UInt8
  | .whole text => ((text.reverseAux out).reverse, [])
  | .malformed text rest => decode final (replacement :: text.reverseAux out) rest
  | .incomplete text rest =>
    if final then ((replacement :: text.reverseAux out).reverse, [])
    else ((text.reverseAux out).reverse, rest)

theorem decode_eq (final : Bool) (out : Text) (bytes : List UInt8) :
    decode final out bytes = conclude final out (check [] bytes) := by
  rw [decode]
  split <;> simp only [conclude, *]

theorem conclude_behind (final : Bool) (out before : Text) (k : Check) :
    conclude final out (k.behind before) = conclude final (before.reverseAux out) k := by
  cases k <;> simp [conclude, Check.behind, List.reverseAux_eq]

variable {a : UInt8} {rest : List UInt8}

@[simp] theorem decode_nil (final : Bool) (out : Text) :
    decode final out [] = (out.reverse, []) := by
  rw [decode_eq, check]
  rfl

theorem decode_of_char {c : Char} {more : Nat} (h : first a rest = .char c more) (final : Bool)
    (out : Text) : decode final out (a :: rest) = decode final (c :: out) (rest.drop more) := by
  have hcheck : check [] (a :: rest) = (check [] (rest.drop more)).behind [c] := by
    rw [check, h]
    exact check_eq [c] _
  rw [decode_eq, hcheck, conclude_behind, decode_eq]
  rfl

theorem decode_of_malformed {more : Nat} (h : first a rest = .malformed more) (final : Bool)
    (out : Text) :
    decode final out (a :: rest) = decode final (replacement :: out) (rest.drop more) := by
  rw [decode_eq, check, h]
  rfl

theorem decode_of_incomplete (h : first a rest = .incomplete) (final : Bool) (out : Text) :
    decode final out (a :: rest) =
      if final then ((replacement :: out).reverse, []) else (out.reverse, a :: rest) := by
  rw [decode_eq, check, h]
  rfl

/-- Induction along the characters of bytes: what holds of no bytes and of those that begin a
character, and holds of bytes if it does behind their first character, holds of all bytes. -/
theorem decode_induction {motive : List UInt8 → Prop} (nil : motive [])
    (char : ∀ a rest c more, first a rest = .char c more → motive (rest.drop more) →
      motive (a :: rest))
    (malformed : ∀ a rest more, first a rest = .malformed more → motive (rest.drop more) →
      motive (a :: rest))
    (incomplete : ∀ a rest, first a rest = .incomplete → motive (a :: rest))
    (bytes : List UInt8) : motive bytes := by
  induction hlen : bytes.length using Nat.strongRecOn generalizing bytes with
  | _ n ih =>
    cases bytes with
    | nil => exact nil
    | cons a rest =>
      have hbehind (more : Nat) : motive (rest.drop more) := by
        refine ih (rest.drop more).length ?_ _ rfl
        rw [← hlen, List.length_drop, List.length_cons]
        omega
      cases hfirst : first a rest with
      | char c more => exact char a rest c more hfirst (hbehind more)
      | malformed more => exact malformed a rest more hfirst (hbehind more)
      | incomplete => exact incomplete a rest hfirst

/-- The text before the bytes stays in front. -/
theorem decode_out (final : Bool) (out : Text) (bytes : List UInt8) :
    decode final out bytes =
      (out.reverse ++ (decode final [] bytes).1, (decode final [] bytes).2) := by
  induction bytes using decode_induction generalizing out with
  | nil => simp
  | char a rest c more h ih =>
    rw [decode_of_char h, decode_of_char h, ih (c :: out), ih [c]]
    simp
  | malformed a rest more h ih =>
    rw [decode_of_malformed h, decode_of_malformed h, ih (replacement :: out), ih [replacement]]
    simp
  | incomplete a rest h =>
    rw [decode_of_incomplete h, decode_of_incomplete h]
    cases final <;> simp

/-- Bytes in two parts are decoded part by part, the second behind what the first leaves. -/
theorem decode_append (final : Bool) (out : Text) (bytes behind : List UInt8) :
    decode final out (bytes ++ behind) =
      decode final (decode false out bytes).1.reverse ((decode false out bytes).2 ++ behind) := by
  induction bytes using decode_induction generalizing out with
  | nil => simp
  | char a rest c more h ih =>
    have hgoes : first a (rest ++ behind) = .char c more := by
      rw [(first_settles a).append rest behind (by rw [h]; exact nofun), h]
    have hmore : more ≤ rest.length := by
      have hle := (first_settles a).more_le rest
      rwa [h, Nat.zero_add] at hle
    rw [List.cons_append, decode_of_char hgoes, decode_of_char h,
      List.drop_append_of_le_length hmore, ih]
  | malformed a rest more h ih =>
    have hgoes : first a (rest ++ behind) = .malformed more := by
      rw [(first_settles a).append rest behind (by rw [h]; exact nofun), h]
    have hmore : more ≤ rest.length := by
      have hle := (first_settles a).more_le rest
      rwa [h, Nat.zero_add] at hle
    rw [List.cons_append, decode_of_malformed hgoes, decode_of_malformed h,
      List.drop_append_of_le_length hmore, ih]
  | incomplete a rest h =>
    rw [decode_of_incomplete h, if_neg Bool.false_ne_true, List.reverse_reverse]

theorem length_held_le (out : Text) (bytes : List UInt8) :
    (decode false out bytes).2.length ≤ 3 := by
  induction bytes using decode_induction generalizing out with
  | nil => simp
  | char a rest c more h ih =>
    rw [decode_of_char h]
    exact ih _
  | malformed a rest more h ih =>
    rw [decode_of_malformed h]
    exact ih _
  | incomplete a rest h =>
    rw [decode_of_incomplete h, if_neg Bool.false_ne_true]
    exact (first_settles a).short rest h

theorem held_final (out : Text) (bytes : List UInt8) : (decode true out bytes).2 = [] := by
  induction bytes using decode_induction generalizing out with
  | nil => simp
  | char a rest c more h ih =>
    rw [decode_of_char h]
    exact ih _
  | malformed a rest more h ih =>
    rw [decode_of_malformed h]
    exact ih _
  | incomplete a rest h => rw [decode_of_incomplete h, if_pos rfl]

end Utf8

namespace Utf16

variable {lowFirst : Bool}

/-! ## Units -/

theorem unitsOnto_eq (seen : List Nat) : (bytes : List UInt8) →
    unitsOnto lowFirst seen bytes = (units lowFirst bytes).reverse ++ seen
  | [] => rfl
  | [_] => rfl
  | a :: b :: bytes => by
    rw [units, List.reverse_reverse, unitsOnto, unitsOnto, unitsOnto_eq _ bytes,
      unitsOnto_eq [unit lowFirst a b] bytes, List.append_assoc, List.singleton_append]

@[simp] theorem units_nil : units lowFirst [] = [] := rfl

@[simp] theorem units_singleton (a : UInt8) : units lowFirst [a] = [] := rfl

@[simp] theorem units_pair (a b : UInt8) (bytes : List UInt8) :
    units lowFirst (a :: b :: bytes) = unit lowFirst a b :: units lowFirst bytes := by
  rw [units, unitsOnto, unitsOnto_eq]
  simp

/-- Behind whole units come the units of what follows. -/
theorem units_append : {bytes : List UInt8} → bytes.length % 2 = 0 → (behind : List UInt8) →
    units lowFirst (bytes ++ behind) = units lowFirst bytes ++ units lowFirst behind
  | [], _, behind => rfl
  | [_], h, _ => by cases h
  | a :: b :: bytes, h, behind => by
    have hrest : bytes.length % 2 = 0 := by
      rw [List.length_cons, List.length_cons] at h
      omega
    rw [List.cons_append, List.cons_append, units_pair, units_pair, units_append hrest behind,
      List.cons_append]

theorem units_eq_nil_iff {bytes : List UInt8} :
    units lowFirst bytes = [] ↔ bytes.length < 2 := by
  match bytes with
  | [] => simp
  | [a] => simp
  | a :: b :: bytes => simp

/-! ## Surrogates -/

theorem endsHigh_cons {u : Nat} {us : List Nat} (h : endsHigh us = true) :
    endsHigh (u :: us) = true := by
  cases us with
  | nil => cases h
  | cons v us => rwa [endsHigh, List.getLast?_cons_cons]

/-- Units in two parts give the characters of both, unless a pair is divided. -/
theorem charsOnto_append {us vs : List Nat} (out : Text)
    (h : endsHigh us = true → ∀ v ∈ vs.head?, isLow v = false) :
    charsOnto out (us ++ vs) = charsOnto (charsOnto out us) vs := by
  fun_induction charsOnto out us with
  | case1 out => rfl
  | case2 out u =>
    cases vs with
    | nil => rfl
    | cons v vs =>
      have hdivided : ¬ (isHigh u && isLow v) = true := by
        intro hpair
        obtain ⟨hu, hv⟩ := Bool.and_eq_true_iff.1 hpair
        have hlow : isLow v = false := h hu v rfl
        exact absurd hv (by simp [hlow])
      rw [List.singleton_append, charsOnto, if_neg hdivided]
  | case3 out u v us hpair ih =>
    rw [List.cons_append, List.cons_append, charsOnto, if_pos hpair]
    exact ih fun hends => h (endsHigh_cons (endsHigh_cons hends))
  | case4 out u v us hpair ih =>
    rw [List.cons_append, List.cons_append, charsOnto, if_neg hpair]
    exact ih fun hends => h (endsHigh_cons hends)

theorem charsOnto_eq (out : Text) (us : List Nat) :
    charsOnto out us = charsOnto [] us ++ out := by
  have hout (seen out : Text) : charsOnto (seen ++ out) us = charsOnto seen us ++ out := by
    fun_induction charsOnto seen us with
    | case1 seen => rfl
    | case2 seen u => rfl
    | case3 seen u v us hpair ih =>
      rw [charsOnto, if_pos hpair]
      exact ih
    | case4 seen u v us hpair ih =>
      rw [charsOnto, if_neg hpair]
      exact ih
  exact hout [] out

/-! ## Bytes in two parts -/

/-- The number of bytes that are held when others follow. -/
def waiting (lowFirst : Bool) (bytes : List UInt8) : Nat :=
  if endsHigh (units lowFirst bytes) then bytes.length % 2 + 2 else bytes.length % 2

/-- The units that are decoded when others follow. -/
def settled (us : List Nat) : List Nat := if endsHigh us then us.dropLast else us

theorem decode_true (bytes : List UInt8) :
    decode lowFirst true bytes =
      ((charsOnto [] (units lowFirst bytes)).reverse ++
        if bytes.length % 2 = 1 then [replacement] else [], []) := by
  rw [decode, if_pos rfl]
  by_cases hhalf : bytes.length % 2 = 1
  · simp [hhalf]
  · simp [hhalf]

theorem decode_false (bytes : List UInt8) :
    decode lowFirst false bytes =
      ((charsOnto [] (settled (units lowFirst bytes))).reverse,
        bytes.drop (bytes.length - waiting lowFirst bytes)) := by
  rw [decode, if_neg Bool.false_ne_true, settled, waiting]

theorem waiting_le (lowFirst : Bool) (bytes : List UInt8) :
    waiting lowFirst bytes ≤ bytes.length ∧ waiting lowFirst bytes ≤ 3 := by
  unfold waiting
  by_cases hhigh : endsHigh (units lowFirst bytes) = true
  · have hne : units lowFirst bytes ≠ [] := by
      intro hnil
      rw [hnil] at hhigh
      cases hhigh
    have htwo := mt units_eq_nil_iff.2 hne
    rw [if_pos hhigh]
    omega
  · rw [if_neg hhigh]
    omega

theorem endsHigh_append {us vs : List Nat} (h : endsHigh us = true → vs ≠ []) :
    endsHigh (us ++ vs) = endsHigh vs := by
  cases vs with
  | nil =>
    rw [List.append_nil]
    by_cases hends : endsHigh us = true
    · exact absurd rfl (h hends)
    · exact Bool.not_eq_true _ ▸ hends
  | cons v vs => simp [endsHigh, List.getLast?_append, List.getLast?_cons]

theorem settled_append {us vs : List Nat} (h : endsHigh us = true → vs ≠ []) :
    settled (us ++ vs) = us ++ settled vs := by
  rw [settled, settled, endsHigh_append h]
  by_cases hends : endsHigh vs = true
  · have hne : vs ≠ [] := by
      rintro rfl
      cases hends
    rw [if_pos hends, if_pos hends, List.dropLast_append_of_ne_nil hne]
  · rw [if_neg hends, if_neg hends]

theorem head?_settled {us : List Nat} {v : Nat} (h : v ∈ (settled us).head?) : v ∈ us.head? := by
  unfold settled at h
  by_cases hends : endsHigh us = true
  · rw [if_pos hends] at h
    match us with
    | [] => cases h
    | [_] => cases h
    | _ :: _ :: _ => exact h
  · rwa [if_neg hends] at h

/-- Whole units, at the end of which no pair is divided, are decoded by themselves. -/
theorem decode_behind (final : Bool) {bytes behind : List UInt8} (heven : bytes.length % 2 = 0)
    (hjoin : endsHigh (units lowFirst bytes) = true →
      ∃ v ∈ (units lowFirst behind).head?, isLow v = false) :
    decode lowFirst final (bytes ++ behind) =
      ((charsOnto [] (units lowFirst bytes)).reverse ++ (decode lowFirst final behind).1,
        (decode lowFirst final behind).2) := by
  have hunits : units lowFirst (bytes ++ behind) = units lowFirst bytes ++ units lowFirst behind :=
    units_append heven behind
  have hhalf : (bytes ++ behind).length % 2 = behind.length % 2 := by
    rw [List.length_append]
    omega
  have hnext : endsHigh (units lowFirst bytes) = true → units lowFirst behind ≠ [] := by
    intro hends hnil
    obtain ⟨v, hv, -⟩ := hjoin hends
    rw [hnil] at hv
    cases hv
  have hlow : endsHigh (units lowFirst bytes) = true →
      ∀ v ∈ (units lowFirst behind).head?, isLow v = false := by
    intro hends v hv
    obtain ⟨w, hw, hlow⟩ := hjoin hends
    rwa [Option.mem_unique hv hw]
  cases final with
  | true =>
    rw [decode_true, decode_true, hunits, hhalf, charsOnto_append [] hlow, charsOnto_eq,
      List.reverse_append, List.append_assoc]
  | false =>
    have hwaiting : waiting lowFirst (bytes ++ behind) = waiting lowFirst behind := by
      rw [waiting, hunits, endsHigh_append hnext, hhalf, waiting]
    obtain ⟨hle, -⟩ := waiting_le lowFirst behind
    have hheld : (bytes ++ behind).drop ((bytes ++ behind).length - waiting lowFirst behind) =
        behind.drop (behind.length - waiting lowFirst behind) := by
      rw [List.length_append, Nat.add_sub_assoc hle, List.drop_length_add_append]
    rw [decode_false, decode_false, hunits, hwaiting, hheld, settled_append hnext,
      charsOnto_append [] fun hends v hv => hlow hends v (head?_settled hv), charsOnto_eq,
      List.reverse_append]

theorem length_held_le (lowFirst : Bool) (bytes : List UInt8) :
    (decode lowFirst false bytes).2.length ≤ 3 := by
  obtain ⟨-, hthree⟩ := waiting_le lowFirst bytes
  rw [decode_false, List.length_drop]
  omega

theorem held_final (lowFirst : Bool) (bytes : List UInt8) :
    (decode lowFirst true bytes).2 = [] := by rw [decode_true]

theorem isLow_of_isHigh {u : Nat} (h : isHigh u = true) : isLow u = false := by
  unfold isHigh at h
  unfold isLow
  simp only [Bool.and_eq_true, decide_eq_true_eq] at h
  simp only [Bool.and_eq_false_iff, decide_eq_false_iff_not]
  omega

/-- What is held begins with the high surrogate that may be half of a pair. -/
theorem exists_high {whole held : List UInt8} (heven : whole.length % 2 = 0)
    (htwo : 2 ≤ held.length) (hthree : held.length ≤ 3)
    (hends : endsHigh (units lowFirst (whole ++ held)) = true) :
    ∃ u, isHigh u = true ∧ units lowFirst (whole ++ held) = units lowFirst whole ++ [u] ∧
      ∀ behind, (units lowFirst (held ++ behind)).head? = some u := by
  match held, htwo, hthree with
  | a :: b :: half, _, hthree =>
    have hhalf : units lowFirst half = [] := by
      rw [List.length_cons, List.length_cons] at hthree
      exact units_eq_nil_iff.2 (by omega)
    have hunits : units lowFirst (whole ++ a :: b :: half) =
        units lowFirst whole ++ [unit lowFirst a b] := by
      rw [units_append heven, units_pair, hhalf]
    refine ⟨unit lowFirst a b, ?_, hunits, ?_⟩
    · rw [hunits, endsHigh, List.getLast?_append] at hends
      simpa using hends
    · intro behind
      rw [List.cons_append, List.cons_append, units_pair, List.head?_cons]

/-- Bytes that others follow are whole units, which are decoded, and what is held. -/
theorem exists_held (lowFirst : Bool) (bytes : List UInt8) : ∃ whole held,
    bytes = whole ++ held ∧ whole.length % 2 = 0 ∧
      decode lowFirst false bytes = ((charsOnto [] (units lowFirst whole)).reverse, held) ∧
      ∀ behind, endsHigh (units lowFirst whole) = true →
        ∃ v ∈ (units lowFirst (held ++ behind)).head?, isLow v = false := by
  obtain ⟨hle, hthree⟩ := waiting_le lowFirst bytes
  obtain ⟨whole, held, rfl, hlength⟩ : ∃ whole held, bytes = whole ++ held ∧
      held.length = waiting lowFirst bytes :=
    ⟨bytes.take (bytes.length - waiting lowFirst bytes),
      bytes.drop (bytes.length - waiting lowFirst bytes), (List.take_append_drop ..).symm, by
        rw [List.length_drop]
        omega⟩
  have hheld : (whole ++ held).drop ((whole ++ held).length - held.length) = held := by
    rw [List.length_append, Nat.add_sub_cancel, List.drop_left]
  rw [decode_false, ← hlength, hheld]
  rw [← hlength] at hthree
  unfold waiting at hlength
  rw [List.length_append] at hlength
  by_cases hends : endsHigh (units lowFirst (whole ++ held)) = true
  · rw [if_pos hends] at hlength
    have heven : whole.length % 2 = 0 := by omega
    obtain ⟨u, hu, hunits, hfirst⟩ := exists_high heven (by omega) hthree hends
    refine ⟨whole, held, rfl, heven, ?_, ?_⟩
    · rw [settled, if_pos hends, hunits, List.dropLast_concat]
    · intro behind _
      exact ⟨u, hfirst behind, isLow_of_isHigh hu⟩
  · rw [if_neg hends] at hlength
    have heven : whole.length % 2 = 0 := by omega
    have hhalf : units lowFirst held = [] := units_eq_nil_iff.2 (by omega)
    have hunits : units lowFirst (whole ++ held) = units lowFirst whole := by
      rw [units_append heven, hhalf, List.append_nil]
    refine ⟨whole, held, rfl, heven, ?_, ?_⟩
    · rw [settled, if_neg hends, hunits]
    · intro behind hwhole
      rw [hunits] at hends
      exact absurd hwhole hends

/-- Bytes in two parts are decoded part by part, the second behind what the first leaves. -/
theorem decode_append (lowFirst final : Bool) (bytes behind : List UInt8) :
    decode lowFirst final (bytes ++ behind) =
      ((decode lowFirst false bytes).1 ++
          (decode lowFirst final ((decode lowFirst false bytes).2 ++ behind)).1,
        (decode lowFirst final ((decode lowFirst false bytes).2 ++ behind)).2) := by
  obtain ⟨whole, held, hbytes, heven, hdecode, hjoin⟩ := exists_held lowFirst bytes
  rw [hdecode, hbytes, List.append_assoc, decode_behind final heven (hjoin behind)]

end Utf16

namespace Decoder

/-! ## Chunks -/

theorem decodeBytes_append (encoding : Encoding) (final : Bool) (bytes behind : List UInt8) :
    decodeBytes encoding final (bytes ++ behind) =
      ((decodeBytes encoding false bytes).1 ++
          (decodeBytes encoding final ((decodeBytes encoding false bytes).2 ++ behind)).1,
        (decodeBytes encoding final ((decodeBytes encoding false bytes).2 ++ behind)).2) := by
  cases encoding with
  | utf8 =>
    simp only [decodeBytes]
    rw [Utf8.decode_append, Utf8.decode_out, List.reverse_reverse]
  | utf16le => exact Utf16.decode_append true final bytes behind
  | utf16be => exact Utf16.decode_append false final bytes behind
  | latin1 => simp [decodeBytes]

theorem decode_eq (d : Decoder) (bytes : List UInt8) (final : Bool) :
    d.decode bytes final =
      ((decodeBytes d.encoding final (d.held ++ bytes)).1,
        ⟨d.encoding, (decodeBytes d.encoding final (d.held ++ bytes)).2⟩) := rfl

/-- Two chunks are decoded one after the other as both are in one. -/
theorem decode_append (d : Decoder) (chunk chunk' : List UInt8) (final : Bool) :
    d.decode (chunk ++ chunk') final =
      ((d.decode chunk false).1 ++ ((d.decode chunk false).2.decode chunk' final).1,
        ((d.decode chunk false).2.decode chunk' final).2) := by
  simp only [decode_eq]
  rw [← List.append_assoc, decodeBytes_append]

/-- The number of bytes that a decoder may hold. -/
def room (encoding : Encoding) : Nat := if encoding = .latin1 then 0 else 3

theorem length_decodeBytes_le (encoding : Encoding) (bytes : List UInt8) :
    (decodeBytes encoding false bytes).2.length ≤ room encoding := by
  cases encoding with
  | utf8 => exact Utf8.length_held_le [] bytes
  | utf16le => exact Utf16.length_held_le true bytes
  | utf16be => exact Utf16.length_held_le false bytes
  | latin1 => exact Nat.le_refl 0

theorem decodeBytes_final (encoding : Encoding) (bytes : List UInt8) :
    (decodeBytes encoding true bytes).2 = [] := by
  cases encoding with
  | utf8 => exact Utf8.held_final [] bytes
  | utf16le => exact Utf16.held_final true bytes
  | utf16be => exact Utf16.held_final false bytes
  | latin1 => rfl

/-- Decodes chunks, none of which is the last, and gives the text with the decoder after them. -/
def decodeEach (d : Decoder) : List (List UInt8) → Text × Decoder
  | [] => ([], d)
  | chunk :: chunks =>
    let (text, d) := d.decode chunk false
    let (texts, d) := d.decodeEach chunks
    (text ++ texts, d)

theorem decodeEach_cons (d : Decoder) (chunk : List UInt8) (chunks : List (List UInt8)) :
    d.decodeEach (chunk :: chunks) =
      ((d.decode chunk false).1 ++ ((d.decode chunk false).2.decodeEach chunks).1,
        ((d.decode chunk false).2.decodeEach chunks).2) := rfl

theorem decodeEach_decode (d : Decoder) (chunks : List (List UInt8)) (last : List UInt8)
    (final : Bool) :
    d.decode (chunks.flatten ++ last) final =
      ((d.decodeEach chunks).1 ++ ((d.decodeEach chunks).2.decode last final).1,
        ((d.decodeEach chunks).2.decode last final).2) := by
  induction chunks generalizing d with
  | nil => rfl
  | cons chunk chunks ih =>
    rw [List.flatten_cons, List.append_assoc, decode_append, ih, decodeEach_cons,
      List.append_assoc]

theorem carried_decodeEach_le (d : Decoder) (chunks : List (List UInt8))
    (h : d.carried ≤ room d.encoding) :
    (d.decodeEach chunks).2.carried ≤ room d.encoding := by
  induction chunks generalizing d with
  | nil => exact h
  | cons chunk chunks ih =>
    rw [decodeEach_cons]
    exact ih (d.decode chunk false).2 (length_decodeBytes_le d.encoding (d.held ++ chunk))

/-- Bytes are decoded to the same text however they are cut into chunks, well-formed or not. Between
two chunks at most three bytes are held, and none where every byte is a character; behind the last
chunk none are. -/
theorem decodeEach_eq_decode (encoding : Encoding) (chunks : List (List UInt8))
    (last : List UInt8) :
    let fresh := ofEncoding encoding
    let between := (fresh.decodeEach chunks).2
    (fresh.decodeEach chunks).1 ++ (between.decode last true).1 =
        (fresh.decode (chunks.flatten ++ last) true).1 ∧
      between.carried ≤ (if encoding = .latin1 then 0 else 3) ∧
      (between.decode last true).2.carried = 0 := by
  intro fresh between
  refine ⟨?_, ?_, ?_⟩
  · rw [decodeEach_decode]
  · exact carried_decodeEach_le fresh chunks (Nat.zero_le _)
  · exact congrArg List.length (decodeBytes_final between.encoding (between.held ++ last))

end Decoder

end TokenTree
