import TokenTree.Proofs.Validation

/-!
# Prefixes of a text that goes on

An answer about the longest prefix is final once it is given: no text to come changes it
(`find_append`). An item that is found is one of the candidates, and the text starts with it.
-/

namespace TokenTree

namespace PrefixMatch

variable {α : Type} {key : α → Text}

theorem isBegun_iff {rest : Text} {item : α} :
    isBegun key rest item = true ↔ rest <+: key item ∧ rest.length < (key item).length := by
  simp [isBegun]

/-- A longer text begins no item that the text at hand does not begin. -/
theorem isBegun_append {rest more : Text} {item : α} (h : isBegun key (rest ++ more) item = true) :
    isBegun key rest item = true := by
  obtain ⟨hp, hlt⟩ := isBegun_iff.1 h
  rw [List.length_append] at hlt
  exact isBegun_iff.2 ⟨(List.prefix_append rest more).trans hp, by omega⟩

/-- What follows a text says nothing about an item that the text does not begin. -/
theorem isPrefixOf_append {rest more : Text} {item : α} (h : isBegun key rest item = false) :
    (key item).isPrefixOf (rest ++ more) = (key item).isPrefixOf rest := by
  rw [Bool.eq_iff_iff, List.isPrefixOf_iff_prefix, List.isPrefixOf_iff_prefix]
  constructor
  · intro hp
    rcases Nat.lt_or_ge rest.length (key item).length with hlt | hge
    · have hrest : rest <+: key item :=
        List.prefix_of_prefix_length_le (List.prefix_append rest more) hp (by omega)
      rw [isBegun_iff.2 ⟨hrest, hlt⟩] at h
      cases h
    · exact List.prefix_of_prefix_length_le hp (List.prefix_append rest more) hge
  · exact fun hp => hp.trans (List.prefix_append rest more)

theorem longestFrom_append {items : List α} {rest : Text} (more : Text)
    (h : items.any (isBegun key rest) = false) (best : Option (Nat × α)) (i : Nat) :
    longestFrom key (rest ++ more) best i items = longestFrom key rest best i items := by
  induction items generalizing best i with
  | nil => rfl
  | cons item items ih =>
    rw [List.any_cons, Bool.or_eq_false_iff] at h
    have hbetter : isBetter key (rest ++ more) best item = isBetter key rest best item := by
      simp only [isBetter, isPrefixOf_append h.1]
    simp only [longestFrom, hbetter, ih h.2]

/-- No text to come changes an answer. -/
theorem find_append {items : List α} {rest : Text}
    (h : find key items rest false ≠ .undecided) (more : Text) (final : Bool) :
    find key items (rest ++ more) final = find key items rest false := by
  have hbegun : items.any (isBegun key rest) = false := by
    cases hb : items.any (isBegun key rest) with
    | false => rfl
    | true => exact absurd (by simp [find, hb]) h
  have hbegun' : items.any (isBegun key (rest ++ more)) = false := by
    rw [List.any_eq_false] at hbegun ⊢
    intro item hitem hb
    exact hbegun item hitem (isBegun_append hb)
  simp only [find, hbegun, hbegun', longestFrom_append more hbegun, Bool.and_false]

theorem find_append_absent {items : List α} {rest : Text}
    (h : find key items rest false = .absent) (more : Text) (final : Bool) :
    find key items (rest ++ more) final = .absent := by
  have hdecided : find key items rest false ≠ .undecided := by
    rw [h]
    exact nofun
  exact (find_append hdecided more final).trans h

/-! ## What is found -/

theorem longestFrom_spec {items : List α} {rest : Text} {best : Option (Nat × α)} {i index : Nat}
    {item : α} (h : longestFrom key rest best i items = some (index, item)) :
    best = some (index, item) ∨
      ∃ k, index = i + k ∧ items[k]? = some item ∧ key item <+: rest := by
  induction items generalizing best i with
  | nil => exact Or.inl h
  | cons head items ih =>
    rw [longestFrom] at h
    rcases ih h with hbest | ⟨k, rfl, hk, hp⟩
    · by_cases hb : isBetter key rest best head = true
      · rw [if_pos hb] at hbest
        cases hbest
        have hp : key item <+: rest := by
          simp only [isBetter, Bool.and_eq_true] at hb
          exact List.isPrefixOf_iff_prefix.1 hb.1
        exact Or.inr ⟨0, rfl, rfl, hp⟩
      · rw [if_neg hb] at hbest
        exact Or.inl hbest
    · exact Or.inr ⟨k + 1, by omega, by simpa using hk, hp⟩

/-- The item found is the candidate at the index, and the text starts with it. -/
theorem find_found {items : List α} {rest : Text} {final : Bool} {index : Nat} {item : α}
    (h : find key items rest final = .found index item) :
    items[index]? = some item ∧ key item <+: rest := by
  unfold find at h
  split at h
  · cases h
  · cases hl : longestFrom key rest none 0 items with
    | none => rw [hl] at h; cases h
    | some best =>
      obtain ⟨j, other⟩ := best
      rw [hl] at h
      cases h
      rcases longestFrom_spec hl with hbest | ⟨k, rfl, hk, hp⟩
      · cases hbest
      · rw [Nat.zero_add]
        exact ⟨hk, hp⟩

/-- A text to which nothing is added is never undecided. -/
theorem find_ne_undecided {items : List α} {rest : Text} :
    find key items rest true ≠ .undecided := by
  simp only [find, Bool.not_true, Bool.false_and]
  cases longestFrom key rest none 0 items <;> simp

/-- No candidate that the text starts with is longer than the one chosen. -/
theorem longestFrom_longest {items : List α} {rest : Text} (best : Option (Nat × α)) (i : Nat)
    {item : α} (h : (∃ j, best = some (j, item)) ∨ item ∈ items ∧ key item <+: rest) :
    ∃ j chosen, longestFrom key rest best i items = some (j, chosen) ∧
      (key item).length ≤ (key chosen).length := by
  induction items generalizing best i item with
  | nil =>
    rcases h with ⟨j, rfl⟩ | ⟨hmem, -⟩
    · exact ⟨j, item, rfl, Nat.le_refl _⟩
    · cases hmem
  | cons head items ih =>
    rw [longestFrom]
    -- what is the best one behind the head is at least as long as the one before
    have hkeep {j : Nat} {other : α} (hbest : best = some (j, other)) :
        ∃ k chosen, longestFrom key rest
          (if isBetter key rest best head then some (i, head) else best) (i + 1) items =
            some (k, chosen) ∧ (key other).length ≤ (key chosen).length := by
      by_cases hb : isBetter key rest best head = true
      · rw [if_pos hb]
        obtain ⟨k, chosen, hk, hle⟩ := ih (some (i, head)) (i + 1) (Or.inl ⟨i, rfl⟩)
        simp only [isBetter, hbest, Option.all_some, Bool.and_eq_true, decide_eq_true_eq] at hb
        exact ⟨k, chosen, hk, by omega⟩
      · rw [if_neg hb]
        exact ih best (i + 1) (Or.inl ⟨j, hbest⟩)
    rcases h with ⟨j, hbest⟩ | ⟨hmem, hp⟩
    · exact hkeep hbest
    · rcases List.mem_cons.1 hmem with rfl | hmem
      · by_cases hb : isBetter key rest best item = true
        · rw [if_pos hb]
          exact ih _ (i + 1) (Or.inl ⟨i, rfl⟩)
        · cases best with
          | none => simp [isBetter, List.isPrefixOf_iff_prefix.2 hp] at hb
          | some found =>
            obtain ⟨j, other⟩ := found
            obtain ⟨k, chosen, hk, hle⟩ := hkeep rfl
            simp [isBetter, List.isPrefixOf_iff_prefix.2 hp] at hb
            exact ⟨k, chosen, hk, by omega⟩
      · exact ih _ (i + 1) (Or.inr ⟨hmem, hp⟩)

/-- The item found is one of the longest candidates that the text starts with. -/
theorem length_le_of_find_found {items : List α} {rest : Text} {final : Bool} {index : Nat}
    {item other : α} (h : find key items rest final = .found index item) (hmem : other ∈ items)
    (hp : key other <+: rest) : (key other).length ≤ (key item).length := by
  obtain ⟨j, chosen, hchosen, hle⟩ := longestFrom_longest none 0 (Or.inr ⟨hmem, hp⟩)
  unfold find at h
  split at h
  · cases h
  · rw [hchosen] at h
    cases h
    exact hle

/-- Where nothing is found the text starts with no candidate. -/
theorem not_prefix_of_find_absent {items : List α} {rest : Text} {final : Bool}
    (h : find key items rest final = .absent) : ∀ item ∈ items, ¬ key item <+: rest := by
  intro item hmem hp
  obtain ⟨j, chosen, hchosen, -⟩ := longestFrom_longest none 0 (Or.inr ⟨hmem, hp⟩)
  unfold find at h
  split at h
  · cases h
  · rw [hchosen] at h
    cases h

/-- A text that is all of a candidate is found to be one. -/
theorem find_whole {items : List α} {item : α} (hmem : item ∈ items) :
    ∃ index other, find key items (key item) true = .found index other ∧ key other = key item := by
  obtain ⟨j, chosen, hchosen, hle⟩ :
      ∃ j chosen, longestFrom key (key item) none 0 items = some (j, chosen) ∧
        (key item).length ≤ (key chosen).length :=
    longestFrom_longest none 0 (Or.inr ⟨hmem, List.prefix_refl _⟩)
  refine ⟨j, chosen, by simp only [find, Bool.not_true, Bool.false_and, hchosen]; rfl, ?_⟩
  rcases longestFrom_spec hchosen with hbest | ⟨k, -, -, hp⟩
  · cases hbest
  · exact hp.eq_of_length_le hle

/-- There is no answer only because some candidate is begun. -/
theorem exists_begun_of_undecided {items : List α} {rest : Text} {final : Bool}
    (h : find key items rest final = .undecided) :
    ∃ item ∈ items, ∃ more, more ≠ [] ∧ key item = rest ++ more := by
  unfold find at h
  split at h
  · next hbegun =>
    obtain ⟨item, hmem, hitem⟩ := List.any_eq_true.1 (Bool.and_eq_true_iff.1 hbegun).2
    obtain ⟨⟨more, hmore⟩, hlt⟩ := isBegun_iff.1 hitem
    refine ⟨item, hmem, more, ?_, hmore.symm⟩
    rintro rfl
    rw [← hmore, List.append_nil] at hlt
    exact absurd hlt (Nat.lt_irrefl _)
  · split at h <;> cases h

end PrefixMatch

/-! ## Accepted delimiters and operators -/

namespace Config

theorem checks (c : Config) :
    Settings.checkStyles [] c.styles = .ok () ∧ c.checkOperators c.operators = .ok () := by
  have h := c.accepted
  simp only [Settings.check] at h
  split at h
  · cases h
  · next hs => exact ⟨hs, h⟩

theorem sound {c : Config} {style : CommentStyle} (h : style ∈ c.styles) : style.Sound :=
  (CommentStyle.faultless_iff.1 (CommentStyle.checkStyles_eq_ok_iff.1 c.checks.1)).1 style h

/-- No comment starts with nothing. -/
theorem start_ne_nil {c : Config} {style : CommentStyle} (h : style ∈ c.styles) :
    style.start ≠ [] := (sound h).1

/-- No block comment ends with nothing. -/
theorem close_ne_nil {c : Config} {style : CommentStyle} {close : Text} (h : style ∈ c.styles)
    (hclose : style.close = some close) : close ≠ [] := by
  rintro rfl
  exact (sound h).2 hclose

/-- Operators have at least two characters. -/
theorem two_le_length {c : Config} {operator : Text} (h : operator ∈ c.operators) :
    2 ≤ operator.length := (Settings.checkOperators_eq_ok_iff.1 c.checks.2 operator h).1

end Config

end TokenTree
