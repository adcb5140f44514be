import Mathlib.Data.List.Chain
import Mathlib.Data.List.Forall2
import Mathlib.Data.List.TakeWhile
import TokenTree.Proofs.Folding

/-!
# Where selectors match

The selectors of a rule match at positions of the list, one each, the first at the position where
the match is tried (`Rule.Placed`). Each stands directly behind the one before it, or behind the
white space that the rule passes over and then on no white space. There is one way to place them:
which token comes next for a selector is settled by where the selector before it stands
(`Rule.Due.eq`). So a match is tried by placing one selector after the other, and it fails at the
first one whose token is missing or is not accepted (`Rule.matchTokens_iff`).
-/

namespace TokenTree

/-- Lists that agree one by one, with one more element at the end of each. -/
theorem forall₂_concat {α β : Type} {R : α → β → Prop} {l : List α} {m : List β} {a : α} {b : β} :
    List.Forall₂ R (l ++ [a]) (m ++ [b]) ↔ List.Forall₂ R l m ∧ R a b := by
  rw [← List.forall₂_reverse_iff, List.reverse_append, List.reverse_append, List.reverse_singleton,
    List.reverse_singleton, List.singleton_append, List.singleton_append, List.forall₂_cons,
    List.forall₂_reverse_iff, and_comm]

namespace Rule

/-- The token after the one at `i` for a selector is at `j`: directly behind it, or, where white
space is passed over, behind all white space. -/
structure Follows (skips : Bool) (tokens : List Token) (i j : Nat) : Prop where
  lt : i < j
  blank : ∀ x, i < x → x < j → ∃ t, tokens[x]? = some t ∧ t.isWhitespace = true
  adjacent : skips = false → j = i + 1
  word : skips = true → ∀ t, tokens[j]? = some t → t.isWhitespace = false

/-- The next selector is to match at `j`, after others at the positions `js`. -/
def Due (skips : Bool) (tokens : List Token) (pos : Nat) (js : List Nat) (j : Nat) : Prop :=
  match js.getLast? with
  | none => j = pos
  | some i => Follows skips tokens i j

/-- There is a token at the position, and the selector accepts it. -/
def Accepts (tokens : List Token) (selector : Selector) (j : Nat) : Prop :=
  ∃ t, tokens[j]? = some t ∧ selector.holds t = true

/-- The selectors match at the positions `js`, one each, of which the first is `pos`. -/
structure Placed (skips : Bool) (tokens : List Token) (pos : Nat) (selectors : List Selector)
    (js : List Nat) : Prop where
  first : ∀ j ∈ js.head?, j = pos
  accepts : List.Forall₂ (Accepts tokens) selectors js
  follows : js.IsChain (Follows skips tokens)

/-- The position behind those that selectors have matched at. -/
def behind (pos : Nat) (js : List Nat) : Nat := js.getLast?.elim pos (· + 1)

variable {skips : Bool} {tokens : List Token} {pos i j : Nat} {js : List Nat}
  {selectors : List Selector} {selector : Selector}

/-! ## The next position -/

theorem Follows.eq {j' : Nat} (h : Follows skips tokens i j) (h' : Follows skips tokens i j') :
    j = j' := by
  cases skips with
  | false => rw [h.adjacent rfl, h'.adjacent rfl]
  | true =>
    -- of two positions the nearer one would be on white space, as all is before the other
    have hnear {a b : Nat} (ha : Follows true tokens i a) (hb : Follows true tokens i b) :
        b ≤ a := by
      by_contra hlt
      obtain ⟨t, ht, hblank⟩ := hb.blank a ha.lt (Nat.lt_of_not_le hlt)
      rw [ha.word rfl t ht] at hblank
      cases hblank
    exact Nat.le_antisymm (hnear h' h) (hnear h h')

/-- The tokens that are passed over end before the next position. -/
theorem follows_skip (skips : Bool) (tokens : List Token) (index i : Nat) :
    ∃ passed, skip skips (index + 1) (tokens.drop (i + 1)) =
        (passed, tokens.drop (i + 1 + passed)) ∧
      Follows skips tokens i (i + 1 + passed) := by
  cases skips with
  | false => exact ⟨0, rfl, by omega, by omega, fun _ => rfl, nofun⟩
  | true =>
    obtain ⟨run, rest, hrun, hrest⟩ : ∃ run rest,
        (tokens.drop (i + 1)).takeWhile Token.isWhitespace = run ∧
          (tokens.drop (i + 1)).dropWhile Token.isWhitespace = rest := ⟨_, _, rfl, rfl⟩
    have hsplit : tokens.drop (i + 1) = run ++ rest := by
      rw [← hrun, ← hrest, List.takeWhile_append_dropWhile]
    have hdrop : tokens.drop (i + 1 + run.length) = rest := by
      rw [← List.drop_drop, hsplit, List.drop_left]
    refine ⟨run.length, ?_, by omega, fun x hx hlt => ?_, nofun, fun _ t ht => ?_⟩
    · rw [skip, if_pos (by simp), hrun, hrest, hdrop]
    · obtain ⟨n, rfl⟩ := Nat.exists_eq_add_of_le hx
      have hn : n < run.length := by omega
      have hmem : run[n] ∈ (tokens.drop (i + 1)).takeWhile Token.isWhitespace := by
        rw [hrun]
        exact List.getElem_mem hn
      refine ⟨run[n], ?_, List.mem_takeWhile_imp hmem⟩
      rw [Nat.succ_eq_add_one, ← List.getElem?_drop, hsplit, List.getElem?_append_left hn]
      exact List.getElem?_eq_getElem hn
    · have hhead : rest.head? = some t := by
        rw [← hdrop, List.head?_drop, ht]
      have hword := List.head?_dropWhile_not Token.isWhitespace (tokens.drop (i + 1))
      rw [hrest, hhead] at hword
      exact hword

theorem Due.eq {j' : Nat} (h : Due skips tokens pos js j) (h' : Due skips tokens pos js j') :
    j = j' := by
  unfold Due at h h'
  cases hlast : js.getLast? with
  | none =>
    rw [hlast] at h h'
    exact h.trans h'.symm
  | some i =>
    rw [hlast] at h h'
    exact Follows.eq h h'

theorem exists_due (skips : Bool) (tokens : List Token) (pos : Nat) (js : List Nat) :
    ∃ j, Due skips tokens pos js j := by
  unfold Due
  cases js.getLast? with
  | none => exact ⟨pos, rfl⟩
  | some i =>
    obtain ⟨passed, -, hfollows⟩ := follows_skip skips tokens 0 i
    exact ⟨_, hfollows⟩

theorem Due.behind_le (h : Due skips tokens pos js j) : behind pos js ≤ j := by
  unfold Due at h
  unfold behind
  split at h
  · next hlast =>
    rw [hlast]
    exact Nat.le_of_eq h.symm
  · next hlast =>
    rw [hlast]
    exact h.lt

/-- The tokens passed over before a selector are those before the position where it is due. -/
theorem Due.skip_eq (h : Due skips tokens pos js j) :
    skip skips js.length (tokens.drop (behind pos js)) =
      (j - behind pos js, tokens.drop j) := by
  unfold Due at h
  unfold behind
  split at h
  · next hlast =>
    obtain rfl := List.getLast?_eq_none_iff.1 hlast
    subst h
    simp [skip]
  · next i hlast =>
    obtain ⟨n, hn⟩ : ∃ n, js.length = n + 1 := by
      refine Nat.exists_eq_add_one_of_ne_zero fun hnil => ?_
      rw [List.length_eq_zero_iff.1 hnil] at hlast
      cases hlast
    obtain ⟨passed, hskip, hfollows⟩ := follows_skip skips tokens n i
    obtain rfl := h.eq hfollows
    rw [hn, hlast]
    show skip skips (n + 1) (tokens.drop (i + 1)) = _
    rw [hskip, Option.elim_some, Nat.add_sub_cancel_left]

/-! ## One more selector -/

theorem placed_nil (skips : Bool) (tokens : List Token) (pos : Nat) :
    Placed skips tokens pos [] [] := ⟨nofun, .nil, .nil⟩

theorem placed_concat :
    Placed skips tokens pos (selectors ++ [selector]) (js ++ [j]) ↔
      Placed skips tokens pos selectors js ∧ Due skips tokens pos js j ∧
        Accepts tokens selector j := by
  unfold Due
  constructor
  · rintro ⟨hfirst, haccepts, hfollows⟩
    obtain ⟨haccepts, haccept⟩ := forall₂_concat.1 haccepts
    obtain ⟨hfollows, -, hnext⟩ := List.isChain_append.1 hfollows
    refine ⟨⟨fun i hi => hfirst i ?_, haccepts, hfollows⟩, ?_, haccept⟩
    · rw [List.head?_append, hi]
      rfl
    · split
      · next hlast =>
        obtain rfl := List.getLast?_eq_none_iff.1 hlast
        exact hfirst j rfl
      · next i hlast => exact hnext i hlast j rfl
  · rintro ⟨⟨hfirst, haccepts, hfollows⟩, hdue, haccept⟩
    refine ⟨?_, forall₂_concat.2 ⟨haccepts, haccept⟩,
      List.isChain_append.2 ⟨hfollows, .singleton j, ?_⟩⟩
    · cases js with
      | nil =>
        rintro _ ⟨⟩
        exact hdue
      | cons i js => exact hfirst
    · rintro i hi _ ⟨⟩
      rw [Option.mem_def.1 hi] at hdue
      exact hdue

/-- What selectors match, the last one apart from the others. -/
theorem Placed.cases_concat (h : Placed skips tokens pos (selectors ++ [selector]) js) :
    ∃ is i, js = is ++ [i] ∧ Placed skips tokens pos selectors is ∧
      Due skips tokens pos is i ∧ Accepts tokens selector i := by
  rcases List.eq_nil_or_concat' js with rfl | ⟨is, i, rfl⟩
  · have hlength := h.accepts.length_eq
    simp at hlength
  · exact ⟨is, i, rfl, placed_concat.1 h⟩

/-- Selectors can be placed in one way only. -/
theorem Placed.eq {js' : List Nat} (h : Placed skips tokens pos selectors js)
    (h' : Placed skips tokens pos selectors js') : js = js' := by
  induction selectors using List.reverseRecOn generalizing js js' with
  | nil =>
    cases h.accepts
    cases h'.accepts
    rfl
  | append_singleton selectors selector ih =>
    obtain ⟨is, i, rfl, hplaced, hdue, -⟩ := h.cases_concat
    obtain ⟨is', i', rfl, hplaced', hdue', -⟩ := h'.cases_concat
    obtain rfl := ih hplaced hplaced'
    obtain rfl := hdue.eq hdue'
    rfl

theorem Placed.le_behind (h : Placed skips tokens pos selectors js) : pos ≤ behind pos js := by
  induction selectors using List.reverseRecOn generalizing js with
  | nil =>
    cases h.accepts
    exact Nat.le_refl pos
  | append_singleton selectors selector ih =>
    obtain ⟨is, i, rfl, hplaced, hdue, -⟩ := h.cases_concat
    have hle := ih hplaced
    have hbehind := hdue.behind_le
    rw [behind, List.getLast?_concat, Option.elim_some]
    omega

/-! ## Trying a match -/

/-- What becomes of a match at its next selector. -/
theorem Due.matchFrom_eq (h : Due skips tokens pos js j) (hle : pos ≤ behind pos js)
    (others : List Selector) :
    matchFrom skips js.length (behind pos js - pos) (selector :: others)
        (tokens.drop (behind pos js)) =
      match tokens[j]? with
      | none => .error ⟨.exhausted, js.length⟩
      | some t =>
        if selector.holds t then
          matchFrom skips (js.length + 1) (j + 1 - pos) others (tokens.drop (j + 1))
        else
          .error ⟨.mismatch, js.length⟩ := by
  have hbehind := h.behind_le
  have hcount : behind pos js - pos + (j - behind pos js) + 1 = j + 1 - pos := by omega
  rw [matchFrom, h.skip_eq]
  cases ht : tokens[j]? with
  | none => rw [List.drop_eq_nil_of_le (List.getElem?_eq_none_iff.1 ht)]
  | some t =>
    obtain ⟨hlt, rfl⟩ := List.getElem?_eq_some_iff.1 ht
    rw [List.drop_eq_getElem_cons hlt]
    simp only [hcount]

/-- With selectors placed, the match goes on with the others behind them. -/
theorem Placed.matchFrom_eq (h : Placed skips tokens pos selectors js) (others : List Selector) :
    matchFrom skips 0 0 (selectors ++ others) (tokens.drop pos) =
      matchFrom skips js.length (behind pos js - pos) others (tokens.drop (behind pos js)) := by
  induction selectors using List.reverseRecOn generalizing js others with
  | nil =>
    cases h.accepts
    show matchFrom skips 0 0 others (tokens.drop pos) =
      matchFrom skips 0 (pos - pos) others (tokens.drop pos)
    rw [Nat.sub_self]
  | append_singleton selectors selector ih =>
    obtain ⟨is, i, rfl, hplaced, hdue, t, ht, hholds⟩ := h.cases_concat
    rw [List.append_assoc, ih hplaced, List.singleton_append, hdue.matchFrom_eq hplaced.le_behind,
      ht]
    simp only [hholds, if_true]
    rw [behind, List.getLast?_concat, Option.elim_some, List.length_append, List.length_singleton]

/-- How a match that is tried at a position ends: all selectors are placed, or one of them comes to
the end of the list or to a token that it does not accept. -/
inductive Ends (skips : Bool) (tokens : List Token) (pos : Nat) (selectors : List Selector) :
    Except Failure Nat → Prop
  | matched {js : List Nat} (h : Placed skips tokens pos selectors js) :
    Ends skips tokens pos selectors (.ok (behind pos js - pos))
  | exhausted {js : List Nat} {k j : Nat} {selector : Selector}
    (h : Placed skips tokens pos (selectors.take k) js) (hselector : selectors[k]? = some selector)
    (hdue : Due skips tokens pos js j) (hnone : tokens[j]? = none) :
    Ends skips tokens pos selectors (.error ⟨.exhausted, k⟩)
  | mismatch {js : List Nat} {k j : Nat} {selector : Selector} {t : Token}
    (h : Placed skips tokens pos (selectors.take k) js) (hselector : selectors[k]? = some selector)
    (hdue : Due skips tokens pos js j) (ht : tokens[j]? = some t)
    (hholds : selector.holds t = false) :
    Ends skips tokens pos selectors (.error ⟨.mismatch, k⟩)

variable {outcome : Except Failure Nat}

theorem take_append_cons {k : Nat} (h : selectors[k]? = some selector) :
    selectors = selectors.take k ++ selector :: selectors.drop (k + 1) := by
  obtain ⟨hlt, rfl⟩ := List.getElem?_eq_some_iff.1 h
  rw [← List.drop_eq_getElem_cons hlt, List.take_append_drop]

/-- A match that fails at the selector with index `k`. -/
theorem Placed.matchFrom_take {k : Nat} (h : Placed skips tokens pos (selectors.take k) js)
    (hselector : selectors[k]? = some selector) :
    js.length = k ∧ matchFrom skips 0 0 selectors (tokens.drop pos) =
      matchFrom skips js.length (behind pos js - pos) (selector :: selectors.drop (k + 1))
        (tokens.drop (behind pos js)) := by
  obtain ⟨hlt, -⟩ := List.getElem?_eq_some_iff.1 hselector
  refine ⟨?_, ?_⟩
  · rw [← h.accepts.length_eq, List.length_take, Nat.min_eq_left (Nat.le_of_lt hlt)]
  · rw [← h.matchFrom_eq, ← take_append_cons hselector]

theorem Ends.eq (h : Ends skips tokens pos selectors outcome) :
    matchFrom skips 0 0 selectors (tokens.drop pos) = outcome := by
  cases h with
  | matched h =>
    have heq := h.matchFrom_eq []
    rwa [List.append_nil] at heq
  | exhausted h hselector hdue hnone =>
    obtain ⟨hk, heq⟩ := h.matchFrom_take hselector
    rw [heq, hdue.matchFrom_eq h.le_behind, hnone, ← hk]
  | mismatch h hselector hdue ht hholds =>
    obtain ⟨hk, heq⟩ := h.matchFrom_take hselector
    rw [heq, hdue.matchFrom_eq h.le_behind, ht, ← hk]
    simp only [hholds, Bool.false_eq_true, if_false]

/-- Selectors are placed one after the other, until one fails. -/
theorem exists_placed_or_ends (skips : Bool) (tokens : List Token) (pos : Nat)
    (selectors : List Selector) (k : Nat) :
    (∃ js, Placed skips tokens pos (selectors.take k) js) ∨
      ∃ outcome, Ends skips tokens pos selectors outcome := by
  induction k with
  | zero => exact Or.inl ⟨[], placed_nil skips tokens pos⟩
  | succ k ih =>
    rcases ih with ⟨js, h⟩ | hends
    · cases hselector : selectors[k]? with
      | none =>
        refine Or.inl ⟨js, ?_⟩
        have hle := List.getElem?_eq_none_iff.1 hselector
        rw [List.take_of_length_le (Nat.le_succ_of_le hle)]
        rwa [List.take_of_length_le hle] at h
      | some selector =>
        obtain ⟨j, hdue⟩ := exists_due skips tokens pos js
        cases ht : tokens[j]? with
        | none => exact Or.inr ⟨_, .exhausted h hselector hdue ht⟩
        | some t =>
          by_cases hholds : selector.holds t = true
          · refine Or.inl ⟨js ++ [j], ?_⟩
            rw [List.take_add_one, hselector]
            exact placed_concat.2 ⟨h, hdue, t, ht, hholds⟩
          · exact Or.inr ⟨_, .mismatch h hselector hdue ht (by simpa using hholds)⟩
    · exact Or.inr hends

theorem exists_ends (skips : Bool) (tokens : List Token) (pos : Nat) (selectors : List Selector) :
    ∃ outcome, Ends skips tokens pos selectors outcome := by
  rcases exists_placed_or_ends skips tokens pos selectors selectors.length with ⟨js, h⟩ | hends
  · rw [List.take_length] at h
    exact ⟨_, .matched h⟩
  · exact hends

theorem ends_of_eq (h : matchFrom skips 0 0 selectors (tokens.drop pos) = outcome) :
    Ends skips tokens pos selectors outcome := by
  obtain ⟨outcome', hends⟩ := exists_ends skips tokens pos selectors
  rwa [← h, hends.eq]

/-- A rule matches where its selectors can be placed, and up to the last of their tokens. There is
one way to place them. Where it does not match, the selectors before the one that fails are placed,
and that one comes to the end of the list or does not accept the token that comes next for it. -/
theorem matchTokens_iff (r : Rule) (hne : r.selectors ≠ []) (tokens : List Token) (pos : Nat) :
    let skips := r.pattern.skipsWhitespace
    (∀ n, r.matchTokens (tokens.drop pos) = .ok n ↔
      ∃ js j, Placed skips tokens pos r.selectors js ∧ js.getLast? = some j ∧ n = j + 1 - pos) ∧
    (∀ js js', Placed skips tokens pos r.selectors js → Placed skips tokens pos r.selectors js' →
      js = js') ∧
    ∀ reason k, r.matchTokens (tokens.drop pos) = .error ⟨reason, k⟩ ↔
      ∃ js selector j, Placed skips tokens pos (r.selectors.take k) js ∧
        r.selectors[k]? = some selector ∧ Due skips tokens pos js j ∧
        match reason with
        | .exhausted => tokens[j]? = none
        | .mismatch => ∃ t, tokens[j]? = some t ∧ selector.holds t = false := by
  refine ⟨fun n => ⟨fun h => ?_, ?_⟩, fun js js' h h' => h.eq h', fun reason k => ⟨fun h => ?_, ?_⟩⟩
  · cases ends_of_eq h with
    | @matched js hplaced =>
      rcases List.eq_nil_or_concat' js with rfl | ⟨is, j, rfl⟩
      · have hlength := hplaced.accepts.length_eq
        exact absurd (List.length_eq_zero_iff.1 hlength) hne
      · refine ⟨_, j, hplaced, List.getLast?_concat, ?_⟩
        rw [behind, List.getLast?_concat, Option.elim_some]
  · rintro ⟨js, j, hplaced, hlast, rfl⟩
    have heq := (Ends.matched hplaced).eq
    rwa [behind, hlast, Option.elim_some] at heq
  · cases ends_of_eq h with
    | exhausted hplaced hselector hdue hnone =>
      exact ⟨_, _, _, hplaced, hselector, hdue, hnone⟩
    | mismatch hplaced hselector hdue ht hholds =>
      exact ⟨_, _, _, hplaced, hselector, hdue, _, ht, hholds⟩
  · rintro ⟨js, selector, j, hplaced, hselector, hdue, hend⟩
    cases reason with
    | exhausted => exact (Ends.exhausted hplaced hselector hdue hend).eq
    | mismatch =>
      obtain ⟨t, ht, hholds⟩ := hend
      exact (Ends.mismatch hplaced hselector hdue ht hholds).eq

/-- Where white space is passed over, a selector for anything does not get the white space behind a
name, and one for white space gets none. -/
theorem matchTokens_iff_blank :
    let name : Token := .leaf .ident ⟨0, 1⟩ (.copied ['f'])
    let blank : Token := .leaf .whitespace ⟨1, 2⟩ (.copied [' '])
    let plus : Token := .leaf .symbol ⟨2, 3⟩ (.copied ['+'])
    let tokens := [blank, name, blank, blank, plus, blank]
    let rule (selectors : List Selector) : Rule := ⟨⟨"pair", 0, [selectors], true⟩, 0, selectors⟩
    ((rule [.any, .any]).selectors ≠ [] ∧
      ∃ js j, Placed true tokens 1 [.any, .any] js ∧ js.getLast? = some j ∧ 4 = j + 1 - 1) ∧
    ((rule [.any, .whitespace]).selectors ≠ [] ∧
      ∃ js j, Placed true tokens 1 [.any] js ∧ Due true tokens 1 js j ∧
        ∃ t, tokens[j]? = some t ∧ t.isWhitespace = false) := by
  intro name blank plus tokens rule
  have hany : (rule [.any, .any]).selectors ≠ [] := List.cons_ne_nil _ _
  have hblank : (rule [.any, .whitespace]).selectors ≠ [] := List.cons_ne_nil _ _
  have hmatch : (rule [.any, .any]).matchTokens (tokens.drop 1) = .ok 4 := rfl
  have hfail : (rule [.any, .whitespace]).matchTokens (tokens.drop 1) = .error ⟨.mismatch, 1⟩ := rfl
  refine ⟨⟨hany, ((matchTokens_iff _ hany tokens 1).1 4).1 hmatch⟩, hblank, ?_⟩
  obtain ⟨js, selector, j, hplaced, hselector, hdue, t, ht, hholds⟩ :=
    ((matchTokens_iff _ hblank tokens 1).2.2 .mismatch 1).1 hfail
  cases hselector
  exact ⟨js, j, hplaced, hdue, t, ht, hholds⟩

end Rule

end TokenTree
