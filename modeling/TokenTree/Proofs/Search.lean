import TokenTree.Scan.Step

/-!
# Searches that go on

The scanner remembers how far it searched a text, and goes on from there when the text has grown.
This file shows that nothing is lost: a search in `s ++ t` gives what the search in `s` gave, and
where that found nothing it is the search in `t` from the end of `s` on. For a mark of several
characters it is enough to go on from a byte before which no occurrence can begin (`seek_seek`,
`endOf?_append_of_absent`).
-/

namespace TokenTree

namespace Text

/-! ## Going to a byte -/

theorem seekFrom_append {s : Text} {n : Nat} (h : n ≤ size s) (count : Nat) (t : Text) :
    seekFrom count n (s ++ t) = ((seekFrom count n s).1, (seekFrom count n s).2 ++ t) := by
  induction s generalizing n count with
  | nil =>
    have hn : n = 0 := by simpa using h
    subst hn
    cases t <;> simp [seekFrom]
  | cons c s ih =>
    rw [size_cons] at h
    by_cases hn : n = 0
    · simp [seekFrom, hn]
    · simp only [List.cons_append, seekFrom, if_neg hn]
      exact ih (by omega) (count + 1)

theorem seek_append {s : Text} {n : Nat} (h : n ≤ size s) (t : Text) :
    seek n (s ++ t) = ((seek n s).1, (seek n s).2 ++ t) := seekFrom_append h 0 t

theorem exists_seekFrom {t : Text} {n : Nat} (h : n ≤ size t) (count : Nat) :
    ∃ before rest, t = before ++ rest ∧ seekFrom count n t = (count + before.length, rest) ∧
      n ≤ size before ∧ ∀ u v, before = u ++ v → v ≠ [] → size u < n := by
  induction t generalizing n count with
  | nil =>
    refine ⟨[], [], rfl, rfl, h, ?_⟩
    intro u v huv hv
    exact absurd (List.append_eq_nil_iff.1 huv.symm).2 hv
  | cons c t ih =>
    rw [size_cons] at h
    by_cases hn : n = 0
    · refine ⟨[], c :: t, rfl, by simp [seekFrom, hn], by simp [hn], ?_⟩
      intro u v huv hv
      exact absurd (List.append_eq_nil_iff.1 huv.symm).2 hv
    · obtain ⟨before, rest, rfl, hseek, hle, hlt⟩ := ih (n := n - c.utf8Size) (by omega) (count + 1)
      refine ⟨c :: before, rest, rfl, ?_, by rw [size_cons]; omega, ?_⟩
      · rw [seekFrom, if_neg hn, hseek, List.length_cons]
        congr 1
        omega
      · intro u v huv hv
        cases u with
        | nil => rw [size_nil]; omega
        | cons d u =>
          obtain ⟨rfl, rfl⟩ := List.cons.inj huv
          have hsize := hlt u v rfl hv
          rw [size_cons]
          omega

/-- Where byte `n` is sought: after the shortest beginning of at least `n` bytes. -/
theorem exists_seek {t : Text} {n : Nat} (h : n ≤ size t) :
    ∃ before rest, t = before ++ rest ∧ seek n t = (before.length, rest) ∧
      n ≤ size before ∧ ∀ u v, before = u ++ v → v ≠ [] → size u < n := by
  obtain ⟨before, rest, ht, hseek, hle, hlt⟩ := exists_seekFrom h 0
  exact ⟨before, rest, ht, by rw [seek, hseek, Nat.zero_add], hle, hlt⟩

theorem seek_size (t : Text) : seek (size t) t = (t.length, []) := by
  obtain ⟨before, rest, ht, hseek, hle, -⟩ := exists_seek (Nat.le_refl (size t))
  have hrest : rest = [] := by
    by_cases hrest : rest = []
    · exact hrest
    · have hpos := size_pos hrest
      have hsize : size t = size before + size rest := by rw [ht, size_append]
      omega
  subst hrest
  rw [hseek, ht, List.append_nil]

theorem seek_behind (s t : Text) : (s ++ t).seek (size s) = (s.length, t) := by
  rw [seek_append (Nat.le_refl _), seek_size, List.nil_append]

/-- Seeking a later byte goes on over a part all of whose characters begin before that byte. -/
theorem seek_seek {t : Text} {n m : Nat} (hnm : n ≤ m) (hm : m ≤ size t) :
    ∃ before mid rest, t = before ++ (mid ++ rest) ∧ seek n t = (before.length, mid ++ rest) ∧
      seek m t = (before.length + mid.length, rest) ∧
      ∀ u v, mid = u ++ v → v ≠ [] → size before + size u < m := by
  obtain ⟨before, rest, ht, hseek, -, hlt⟩ := exists_seek (Nat.le_trans hnm hm)
  obtain ⟨before', rest', ht', hseek', hle', hlt'⟩ := exists_seek hm
  rcases List.append_eq_append_iff.1 (ht.symm.trans ht') with ⟨mid, rfl, rfl⟩ | ⟨mid, rfl, rfl⟩
  · refine ⟨before, mid, rest', ht, hseek, by rw [hseek', List.length_append], ?_⟩
    intro u v huv hv
    rw [← size_append]
    exact hlt' (before ++ u) v (by rw [huv, List.append_assoc]) hv
  · by_cases hmid : mid = []
    · subst hmid
      refine ⟨before', [], rest, by simpa using ht', by simpa using hseek,
        by simpa using hseek', ?_⟩
      intro u v huv hv
      exact absurd (List.append_eq_nil_iff.1 huv.symm).2 hv
    · have hsize := hlt before' mid rfl hmid
      omega

/-! ## Searching for a mark -/

theorem endOfFrom?_add (mark t : Text) (k count : Nat) :
    endOfFrom? mark (k + count) t = (endOfFrom? mark count t).map (k + ·) := by
  induction t generalizing count with
  | nil => simp only [endOfFrom?]; split <;> rfl
  | cons c r ih =>
    simp only [endOfFrom?]
    split
    · simp [Nat.add_assoc]
    · rw [Nat.add_assoc, ih]

theorem length_le_of_endOfFrom? {mark t : Text} {count n : Nat}
    (h : endOfFrom? mark count t = some n) : mark.length ≤ t.length ∧ n ≤ count + t.length := by
  induction t generalizing count with
  | nil =>
    simp only [endOfFrom?] at h
    split at h
    · next he => cases h; simp [List.isEmpty_iff.1 he]
    · cases h
  | cons c r ih =>
    simp only [endOfFrom?] at h
    split at h
    · next hp =>
      cases h
      have hle := (List.isPrefixOf_iff_prefix.1 hp).length_le
      exact ⟨hle, by omega⟩
    · have hbounds := ih h
      rw [List.length_cons]
      omega

theorem endOfFrom?_eq_none_iff {mark t : Text} {count : Nat} :
    endOfFrom? mark count t = none ↔ ∀ u v, t = u ++ v → ¬ mark <+: v := by
  induction t generalizing count with
  | nil =>
    simp only [endOfFrom?]
    constructor
    · intro h u v huv hp
      obtain ⟨rfl, rfl⟩ := List.append_eq_nil_iff.1 huv.symm
      simp [List.prefix_nil.1 hp] at h
    · intro h
      rw [if_neg]
      intro he
      exact h [] [] rfl (by simp [List.isEmpty_iff.1 he])
  | cons c r ih =>
    simp only [endOfFrom?]
    split
    · next hp =>
      constructor
      · intro h
        cases h
      · intro h
        exact absurd (List.isPrefixOf_iff_prefix.1 hp) (h [] (c :: r) rfl)
    · next hp =>
      rw [ih]
      constructor
      · intro h u v huv hv
        cases u with
        | nil =>
          have hv' : v = c :: r := by simpa using huv.symm
          subst hv'
          exact hp (List.isPrefixOf_iff_prefix.2 hv)
        | cons d u => exact h u v (List.cons.inj huv).2 hv
      · intro h u v huv
        exact h (c :: u) v (by rw [huv]; rfl)

theorem exists_of_endOfFrom? {mark t : Text} {count n : Nat}
    (h : endOfFrom? mark count t = some n) :
    ∃ u v, t = u ++ (mark ++ v) ∧ n = count + u.length + mark.length := by
  induction t generalizing count with
  | nil =>
    simp only [endOfFrom?] at h
    split at h
    · next he =>
      cases h
      exact ⟨[], [], by simp [List.isEmpty_iff.1 he], by simp [List.isEmpty_iff.1 he]⟩
    · cases h
  | cons c r ih =>
    simp only [endOfFrom?] at h
    split at h
    · next hp =>
      cases h
      obtain ⟨v, hv⟩ := List.isPrefixOf_iff_prefix.1 hp
      exact ⟨[], v, by simpa using hv.symm, by simp⟩
    · obtain ⟨u, v, rfl, rfl⟩ := ih h
      exact ⟨c :: u, v, rfl, by rw [List.length_cons]; omega⟩

/-- Where an occurrence is found it ends. -/
theorem exists_of_endOf? {mark t : Text} {n : Nat} (h : endOf? t mark = some n) :
    ∃ u v, t = u ++ (mark ++ v) ∧ n = u.length + mark.length := by
  obtain ⟨u, v, ht, hn⟩ := exists_of_endOfFrom? h
  exact ⟨u, v, ht, by omega⟩

/-- What is found is the first occurrence. -/
theorem le_of_endOfFrom? {mark t u v : Text} {count n : Nat}
    (h : endOfFrom? mark count t = some n) (ht : t = u ++ v) (hv : mark <+: v) :
    n ≤ count + u.length + mark.length := by
  induction t generalizing u count with
  | nil =>
    obtain ⟨rfl, rfl⟩ := List.append_eq_nil_iff.1 ht.symm
    have hle := (length_le_of_endOfFrom? h).2
    rw [List.length_nil] at hle
    omega
  | cons c r ih =>
    simp only [endOfFrom?] at h
    split at h
    · cases h
      omega
    · next hp =>
      cases u with
      | nil =>
        rw [List.nil_append] at ht
        rw [← ht] at hv
        exact absurd (List.isPrefixOf_iff_prefix.2 hv) hp
      | cons d u =>
        have hle := ih h (List.cons.inj ht).2
        rw [List.length_cons]
        omega

theorem endOfFrom?_append_left {s mark : Text} {count n : Nat}
    (h : endOfFrom? mark count s = some n) (t : Text) :
    endOfFrom? mark count (s ++ t) = some n := by
  induction s generalizing count with
  | nil =>
    simp only [endOfFrom?] at h
    split at h
    · next he =>
      cases h
      rw [List.isEmpty_iff.1 he]
      cases t <;> simp [endOfFrom?]
    · cases h
  | cons c r ih =>
    have hlen := (length_le_of_endOfFrom? h).1
    have hiff : mark <+: c :: (r ++ t) ↔ mark <+: c :: r :=
      ⟨fun hp => List.prefix_of_prefix_length_le hp (List.prefix_append (c :: r) t) hlen,
        fun hp => hp.trans (List.prefix_append (c :: r) t)⟩
    simp only [endOfFrom?, List.cons_append, List.isPrefixOf_iff_prefix, hiff] at h ⊢
    split at h
    · next hp => rw [if_pos hp, h]
    · next hp => rw [if_neg hp, ih h]

/-- An occurrence found in a beginning is the first one in the whole. -/
theorem endOf?_append_left {s mark : Text} {n : Nat} (h : endOf? s mark = some n) (t : Text) :
    endOf? (s ++ t) mark = some n := endOfFrom?_append_left h t

/-- A part in which no occurrence begins is passed over. -/
theorem endOf?_append_of_absent {s t mark : Text}
    (h : ∀ u v, s = u ++ v → v ≠ [] → ¬ mark <+: v ++ t) :
    endOf? (s ++ t) mark = (endOf? t mark).map (s.length + ·) := by
  have from_ (count : Nat) :
      endOfFrom? mark count (s ++ t) = endOfFrom? mark (s.length + count) t := by
    induction s generalizing count with
    | nil => simp
    | cons c r ih =>
      have hc : ¬ mark <+: c :: (r ++ t) := h [] (c :: r) rfl (by simp)
      rw [List.cons_append, endOfFrom?, if_neg (by rwa [List.isPrefixOf_iff_prefix]),
        ih (fun u v huv => h (c :: u) v (by rw [huv]; rfl)), List.length_cons]
      congr 1
      omega
  rw [endOf?, from_, endOfFrom?_add]
  rfl

/-- An occurrence that a longer text brings ends beyond the text at hand. -/
theorem lt_of_endOf?_append {s t mark : Text} {n : Nat} (hs : endOf? s mark = none)
    (h : endOf? (s ++ t) mark = some n) : s.length < n := by
  obtain ⟨u, v, huv, rfl⟩ := exists_of_endOf? h
  refine Nat.lt_of_not_le fun hle => ?_
  have hp : u ++ mark <+: s := by
    have hwhole : u ++ mark <+: s ++ t := ⟨v, by rw [List.append_assoc, ← huv]⟩
    refine List.prefix_of_prefix_length_le hwhole (List.prefix_append s t) ?_
    rwa [List.length_append]
  obtain ⟨w, hw⟩ := hp
  exact endOfFrom?_eq_none_iff.1 hs u (mark ++ w) (by rw [← hw, List.append_assoc])
    (List.prefix_append mark w)

end Text

/-! ## Searching for a quote -/

namespace Step

/-- The search for a quote in two parts of a text. -/
theorem findQuote_append (quote : Char) (escaped : Bool) (count : Nat) (s t : Text) :
    findQuote quote escaped count (s ++ t) =
      match findQuote quote escaped count s with
      | .closed n => .closed n
      | .unfinished escaped => findQuote quote escaped (count + s.length) t := by
  induction s generalizing escaped count with
  | nil => rfl
  | cons c s ih =>
    have shift : count + 1 + s.length = count + (c :: s).length := by
      rw [List.length_cons]
      omega
    simp only [List.cons_append, findQuote]
    split
    · rw [ih, shift]
    · split
      · rw [ih, shift]
      · split
        · rfl
        · rw [ih, shift]

theorem count_le_of_findQuote {quote : Char} {escaped : Bool} {count n : Nat} {t : Text}
    (h : findQuote quote escaped count t = .closed n) : count < n ∧ n ≤ count + t.length := by
  induction t generalizing escaped count with
  | nil => cases h
  | cons c t ih =>
    rw [List.length_cons]
    simp only [findQuote] at h
    split at h
    · have hbounds := ih h
      omega
    · split at h
      · have hbounds := ih h
        omega
      · split at h
        · cases h
          omega
        · have hbounds := ih h
          omega

end Step

end TokenTree
