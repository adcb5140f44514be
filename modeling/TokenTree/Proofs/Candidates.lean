import TokenTree.Proofs.Prefix

/-!
# The first of the longest candidates

The candidates can be gone through once, with the best one so far in hand, until one of them is met
that the text only begins (`PrefixMatch.pass`). Nothing is lost by stopping there, whatever was in
hand (`PrefixMatch.find_eq_pass`). What is in hand after some of the candidates is the first of the
longest of these that the text starts with (`PrefixMatch.Best`): each further candidate keeps that
(`PrefixMatch.Best.step`), and so the choice from all of them has it.

There is an answer unless one is impossible: an answer holds for every text that goes on, and where
there is none some text to come makes a candidate match that is longer than the text at hand
(`PrefixMatch.find_decides`).
-/

namespace TokenTree

namespace Text

variable {s t rest : Text}

/-- Of two beginnings of one text the one with fewer characters has fewer bytes. -/
theorem size_lt_size_iff (hs : s <+: rest) (ht : t <+: rest) :
    size s < size t ↔ s.length < t.length := by
  rcases List.prefix_or_prefix_of_prefix hs ht with ⟨u, rfl⟩ | ⟨u, rfl⟩
  · by_cases hu : u = []
    · simp [hu]
    · have hpos := size_pos hu
      have hlen := List.length_pos_iff.2 hu
      rw [size_append, List.length_append]
      omega
  · rw [size_append, List.length_append]
    omega

end Text

namespace PrefixMatch

variable {α : Type} (key : α → Text)

/-- Goes once through the candidates from index `i` on, with the best of those before in hand. It
stops at the first one that the text only begins, if more text may follow. Lengths are in bytes. -/
def pass (rest : Text) (final : Bool) (best : Option (Nat × α)) (i : Nat) :
    List α → PrefixMatch α
  | [] =>
    match best with
    | some (index, item) => .found index item
    | none => .absent
  | item :: items =>
    if (key item).isPrefixOf rest then
      let longer := best.all fun (_, other) =>
        decide (Text.size (key other) < Text.size (key item))
      pass rest final (if longer then some (i, item) else best) (i + 1) items
    else if !final && (decide (Text.size rest < Text.size (key item)) &&
        rest.isPrefixOf (key item)) then .undecided
    else pass rest final best (i + 1) items

/-- The item stands at the index, the text starts with it, and it is the first of the longest
candidates of which this is so. -/
structure FirstLongest (items : List α) (rest : Text) (index : Nat) (item : α) : Prop where
  stands : items[index]? = some item
  starts : key item <+: rest
  longest : ∀ other ∈ items, key other <+: rest → Text.size (key other) ≤ Text.size (key item)
  first : ∀ j other, j < index → items[j]? = some other → key other <+: rest →
    Text.size (key other) < Text.size (key item)

/-- What is in hand is the first of the longest of these candidates that the text starts with, or
nothing if it starts with none of them. -/
def Best (rest : Text) (items : List α) : Option (Nat × α) → Prop
  | some (index, item) => FirstLongest key items rest index item
  | none => ∀ item ∈ items, ¬ key item <+: rest

variable {key} {items seen : List α} {rest : Text} {final : Bool} {best : Option (Nat × α)}

/-! ## One candidate more -/

/-- One more candidate changes nothing if it does not match or is no longer than the one chosen. -/
theorem FirstLongest.keep {index : Nat} {chosen item : α}
    (h : FirstLongest key seen rest index chosen)
    (hitem : key item <+: rest → Text.size (key item) ≤ Text.size (key chosen)) :
    FirstLongest key (seen ++ [item]) rest index chosen := by
  have hlt := (List.getElem?_eq_some_iff.1 h.stands).1
  refine ⟨?_, h.starts, ?_, ?_⟩
  · rw [List.getElem?_append_left hlt]
    exact h.stands
  · intro other hother hp
    rcases List.mem_append.1 hother with hother | hother
    · exact h.longest other hother hp
    · obtain rfl := List.mem_singleton.1 hother
      exact hitem hp
  · intro j other hj hother
    rw [List.getElem?_append_left (Nat.lt_trans hj hlt)] at hother
    exact h.first j other hj hother

/-- A candidate that matches and is longer than all before that match is chosen. -/
theorem FirstLongest.last {item : α} (hp : key item <+: rest)
    (hlonger : ∀ other ∈ seen, key other <+: rest →
      Text.size (key other) < Text.size (key item)) :
    FirstLongest key (seen ++ [item]) rest seen.length item := by
  refine ⟨?_, hp, ?_, ?_⟩
  · rw [List.getElem?_append_right (Nat.le_refl _), Nat.sub_self, List.getElem?_cons_zero]
  · intro other hother hp'
    rcases List.mem_append.1 hother with hother | hother
    · exact Nat.le_of_lt (hlonger other hother hp')
    · obtain rfl := List.mem_singleton.1 hother
      exact Nat.le_refl _
  · intro j other hj hother
    rw [List.getElem?_append_left hj] at hother
    exact hlonger other (List.mem_of_getElem? hother)

/-- The better of a candidate and what is in hand is best with that candidate. -/
theorem Best.step (h : Best key rest seen best) (item : α) :
    Best key rest (seen ++ [item])
      (if isBetter key rest best item then some (seen.length, item) else best) := by
  by_cases hp : key item <+: rest
  · cases best with
    | none =>
      have hbetter : isBetter key rest none item = true := by
        simp [isBetter, List.isPrefixOf_iff_prefix.2 hp]
      rw [if_pos hbetter]
      exact FirstLongest.last hp fun other hother hp' => absurd hp' (h other hother)
    | some found =>
      obtain ⟨index, chosen⟩ := found
      have hbetter : isBetter key rest (some (index, chosen)) item = true ↔
          Text.size (key chosen) < Text.size (key item) := by
        rw [Text.size_lt_size_iff h.starts hp]
        simp [isBetter, List.isPrefixOf_iff_prefix.2 hp]
      by_cases hlt : Text.size (key chosen) < Text.size (key item)
      · rw [if_pos (hbetter.2 hlt)]
        exact FirstLongest.last hp fun other hother hp' =>
          Nat.lt_of_le_of_lt (h.longest other hother hp') hlt
      · rw [if_neg (mt hbetter.1 hlt)]
        exact FirstLongest.keep h fun _ => Nat.le_of_not_lt hlt
  · have hbetter : isBetter key rest best item = false := by
      rw [← List.isPrefixOf_iff_prefix, Bool.not_eq_true] at hp
      simp [isBetter, hp]
    rw [hbetter, if_neg Bool.false_ne_true]
    cases best with
    | none =>
      refine List.forall_mem_append.2 ⟨h, ?_⟩
      simpa using hp
    | some found => exact FirstLongest.keep h fun hp' => absurd hp' hp

/-! ## All candidates -/

/-- What is chosen from the candidates to come and what is in hand is best of all of them. -/
theorem Best.run (h : Best key rest seen best) (items : List α) :
    Best key rest (seen ++ items) (longestFrom key rest best seen.length items) := by
  induction items generalizing seen best with
  | nil =>
    rw [List.append_nil]
    exact h
  | cons item items ih =>
    have hstep := ih (h.step item)
    rw [List.append_assoc, List.singleton_append, List.length_append, List.length_singleton]
      at hstep
    exact hstep

theorem best_longestFrom (items : List α) (rest : Text) :
    Best key rest items (longestFrom key rest none 0 items) := by
  have hnone : Best key rest [] none := List.forall_mem_nil _
  exact hnone.run items

/-- To stop at a candidate that the text only begins gives what all candidates would. -/
theorem pass_eq (hbest : ∀ index item, best = some (index, item) → key item <+: rest) (i : Nat)
    (items : List α) :
    pass key rest final best i items =
      if !final && items.any (isBegun key rest) then .undecided
      else
        match longestFrom key rest best i items with
        | some (index, item) => .found index item
        | none => .absent := by
  induction items generalizing best i with
  | nil => simp [pass, longestFrom]
  | cons item items ih =>
    rw [pass, longestFrom, List.any_cons]
    by_cases hp : key item <+: rest
    · -- a candidate that matches is not one that the text only begins
      have hbegun : isBegun key rest item = false := by
        rw [Bool.eq_false_iff, Ne, isBegun_iff]
        rintro ⟨-, hlt⟩
        exact absurd hp.length_le (Nat.not_le.2 hlt)
      have hbetter : isBetter key rest best item =
          best.all fun (_, other) => decide (Text.size (key other) < Text.size (key item)) := by
        rw [isBetter, List.isPrefixOf_iff_prefix.2 hp, Bool.true_and]
        cases best with
        | none => rfl
        | some found =>
          obtain ⟨index, chosen⟩ := found
          simp only [Option.all_some]
          exact decide_eq_decide.2 (Text.size_lt_size_iff (hbest index chosen rfl) hp).symm
      rw [if_pos (List.isPrefixOf_iff_prefix.2 hp), hbegun, Bool.false_or, hbetter]
      refine ih ?_ (i + 1)
      intro index chosen hchosen
      split at hchosen
      · cases hchosen
        exact hp
      · exact hbest index chosen hchosen
    · have hbetter : isBetter key rest best item = false := by
        rw [← List.isPrefixOf_iff_prefix, Bool.not_eq_true] at hp
        simp [isBetter, hp]
      have hbegun : (decide (Text.size rest < Text.size (key item)) &&
          rest.isPrefixOf (key item)) = isBegun key rest item := by
        rw [Bool.eq_iff_iff, isBegun_iff, Bool.and_eq_true, decide_eq_true_eq,
          List.isPrefixOf_iff_prefix, and_comm, and_congr_right_iff]
        exact fun hp' => Text.size_lt_size_iff hp' (List.prefix_refl _)
      rw [if_neg (mt List.isPrefixOf_iff_prefix.1 hp), hbegun, hbetter,
        if_neg Bool.false_ne_true, ih hbest (i + 1)]
      cases final <;> cases isBegun key rest item <;> simp

/-- The longest prefix is found in one pass. -/
theorem find_eq_pass (items : List α) (rest : Text) (final : Bool) :
    find key items rest final = pass key rest final none 0 items := (pass_eq nofun 0 items).symm

/-! ## Answers -/

theorem firstLongest_of_found {index : Nat} {item : α}
    (h : find key items rest final = .found index item) :
    FirstLongest key items rest index item := by
  have hbest : Best key rest items (longestFrom key rest none 0 items) :=
    best_longestFrom items rest
  unfold find at h
  split at h
  · cases h
  · cases hl : longestFrom key rest none 0 items with
    | none => rw [hl] at h; cases h
    | some found =>
      obtain ⟨j, chosen⟩ := found
      rw [hl] at h hbest
      cases h
      exact hbest

/-- Where there is no answer yet some text to come makes a candidate match that is longer than the
text at hand. -/
theorem exists_found_of_undecided (h : find key items rest false = .undecided) :
    ∃ more index item, find key items (rest ++ more) true = .found index item ∧
      Text.size rest < Text.size (key item) := by
  obtain ⟨begun, hmem, more, hne, hbegun⟩ := exists_begun_of_undecided h
  obtain ⟨index, item, hfound, hkey⟩ :
      ∃ index item, find key items (key begun) true = .found index item ∧ key item = key begun :=
    find_whole hmem
  have hpos := Text.size_pos hne
  refine ⟨more, index, item, ?_, ?_⟩
  · rw [← hbegun]
    exact hfound
  · rw [hkey, hbegun, Text.size_append]
    omega

/-- The longest prefix is found in one pass over the candidates, and as soon as it can be. An answer
that is given while more text may follow is the answer for every longer text, whether that is
complete or not. If none is given, some text to come makes a candidate match that is longer than all
of the text at hand; for a complete text there always is one. What is found is the first of the
longest candidates that the text starts with, and where nothing is found it starts with none. -/
theorem find_decides (key : α → Text) (items : List α) (rest : Text) :
    (∀ final, find key items rest final = pass key rest final none 0 items) ∧
      (find key items rest false ≠ .undecided →
        ∀ more final, find key items (rest ++ more) final = find key items rest false) ∧
      (find key items rest false = .undecided →
        ∃ more index item, find key items (rest ++ more) true = .found index item ∧
          Text.size rest < Text.size (key item)) ∧
      find key items rest true ≠ .undecided ∧
      ∀ final, (∀ index item, find key items rest final = .found index item →
          FirstLongest key items rest index item) ∧
        (find key items rest final = .absent → ∀ item ∈ items, ¬ key item <+: rest) :=
  ⟨find_eq_pass items rest, find_append, exists_found_of_undecided, find_ne_undecided,
    fun _ => ⟨fun _ _ => firstLongest_of_found, not_prefix_of_find_absent⟩⟩

/-- Candidates that are beginnings of each other, in no order: the text is all of the first one and
the beginning of the second, until a character comes that goes with neither. -/
example : find id [['=', '='], ['=', '=', '='], ['=']] ['=', '='] false = .undecided ∧
    find id [['=', '='], ['=', '=', '='], ['=']] ['=', '=', '>'] false = .found 0 ['=', '='] := by
  decide

end PrefixMatch

end TokenTree
