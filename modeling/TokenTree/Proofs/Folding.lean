import TokenTree.Pattern.Fold
import TokenTree.Proofs.Ranking

/-!
# Patterns are matched from left to right

Patterns are applied to a list of tokens in two steps: matches are recorded by position first, and
what was recorded is applied afterwards. What comes out is what one pass from the left to the right
makes of the tokens (`PatternSet.apply_eq_rewrite`): the first alternative that matches where the
pass stands gathers its run of tokens, and the pass goes on behind it (`PatternSet.gather`).

`Fold.Passes` is the pass, with what it records, and `Fold.Applied` is what it means that all of
that was applied. An accepted pattern selects at least one token, so the runs follow each other
without an overlap: sorting leaves them as they are, and none is passed over.
-/

namespace TokenTree

/-! ## Matches -/

/-- The number of tokens that the selectors match at the start of the list, if they match there. -/
def Pattern.matchAt? (p : Pattern) (selectors : List Selector) (tokens : List Token) :
    Option Nat := (Rule.matchFrom p.skipsWhitespace 0 0 selectors tokens).toOption

namespace Rule

theorem length_skip (skips : Bool) (index : Nat) (tokens : List Token) :
    (skip skips index tokens).1 + (skip skips index tokens).2.length = tokens.length := by
  unfold skip
  split
  · rw [← List.length_append, List.takeWhile_append_dropWhile]
  · exact Nat.zero_add _

/-- A match takes a token for each selector, and no more tokens than there are. -/
theorem matchFrom_bounds {skips : Bool} {index consumed count : Nat} {selectors : List Selector}
    {tokens : List Token} (h : matchFrom skips index consumed selectors tokens = .ok count) :
    consumed + selectors.length ≤ count ∧ count ≤ consumed + tokens.length := by
  induction selectors generalizing index consumed tokens with
  | nil =>
    cases h
    exact ⟨Nat.le_refl _, Nat.le_add_right _ _⟩
  | cons selector selectors ih =>
    have hlength := length_skip skips index tokens
    rw [matchFrom] at h
    generalize skip skips index tokens = skipped at h hlength
    obtain ⟨passed, rest⟩ := skipped
    cases rest with
    | nil => cases h
    | cons t rest =>
      rw [List.length_cons] at hlength ⊢
      by_cases hholds : selector.holds t = true
      · have hbounds := ih ((if_pos hholds).symm.trans h)
        omega
      · cases (if_neg hholds).symm.trans h

theorem firstMatch_append (rules others : List Rule) (tokens : List Token) :
    firstMatch (rules ++ others) tokens = (firstMatch rules tokens).or (firstMatch others tokens) :=
  List.findSome?_append

theorem exists_of_firstMatch {rules : List Rule} {tokens : List Token} {r : Rule} {count : Nat}
    (h : firstMatch rules tokens = some (r, count)) :
    r ∈ rules ∧ r.matchTokens tokens = .ok count := by
  obtain ⟨r', hmem, h⟩ := List.exists_of_findSome?_eq_some h
  obtain ⟨n, hn, hpair⟩ := Option.map_eq_some_iff.1 h
  cases hpair
  cases hmatch : r.matchTokens tokens with
  | error e =>
    rw [hmatch] at hn
    cases hn
  | ok n =>
    rw [hmatch] at hn
    cases hn
    exact ⟨hmem, rfl⟩

end Rule

namespace PatternSet

variable {s : PatternSet}

/-- No alternative of an accepted pattern is empty. -/
theorem selectors_ne_nil {p : Pattern} (hp : p ∈ s.patterns) :
    ∀ selectors ∈ p.alternatives, selectors ≠ [] := by
  obtain ⟨definitions, hcheck, hpatterns⟩ := s.accepted
  rw [hpatterns] at hp
  have hsound : p.Sound := (Pattern.checkAll_eq_ok_iff.1 hcheck).1 p (List.mem_mergeSort.1 hp)
  exact hsound.2.2

theorem mem_rules {r : Rule} (hr : r ∈ s.rules) :
    r.pattern ∈ s.patterns ∧ r.selectors ∈ r.pattern.alternatives := by
  obtain ⟨p, hp, hr⟩ := List.mem_flatMap.1 hr
  obtain ⟨i, hi, rfl⟩ := List.mem_mapIdx.1 hr
  exact ⟨hp, List.getElem_mem hi⟩

/-- A match takes at least one token, and no more than there are. -/
theorem firstMatch_bounds {tokens : List Token} {r : Rule} {count : Nat}
    (h : Rule.firstMatch s.rules tokens = some (r, count)) :
    1 ≤ count ∧ count ≤ tokens.length := by
  obtain ⟨hr, hmatch⟩ := Rule.exists_of_firstMatch h
  obtain ⟨hp, hselectors⟩ := mem_rules hr
  have hne := List.length_pos_iff.2 (selectors_ne_nil hp _ hselectors)
  have hbounds := Rule.matchFrom_bounds hmatch
  omega

/-- The first pattern with an alternative that matches at the start of the list, with the number of
tokens. -/
def firstAt (s : PatternSet) (tokens : List Token) : Option (Pattern × Nat) :=
  s.patterns.findSome? fun p =>
    p.alternatives.findSome? fun selectors => (p.matchAt? selectors tokens).map (p, ·)

theorem firstMatch_alternatives (p : Pattern) (alternatives : List (List Selector))
    (number : Nat → Nat) (tokens : List Token) :
    (Rule.firstMatch (alternatives.mapIdx fun i selectors => ⟨p, number i, selectors⟩)
        tokens).map (Prod.map Rule.pattern id) =
      alternatives.findSome? fun selectors => (p.matchAt? selectors tokens).map (p, ·) := by
  induction alternatives generalizing number with
  | nil => rfl
  | cons selectors alternatives ih =>
    rw [List.mapIdx_cons, List.findSome?_cons, ← ih fun i => number (i + 1), Rule.firstMatch,
      List.findSome?_cons, Rule.matchTokens, Pattern.matchAt?]
    cases (Rule.matchFrom p.skipsWhitespace 0 0 selectors tokens).toOption <;> rfl

/-- To try the rules in their order is to try each pattern in its order, and of each pattern its
alternatives in theirs. -/
theorem firstAt_eq (s : PatternSet) (tokens : List Token) :
    s.firstAt tokens = (Rule.firstMatch s.rules tokens).map (Prod.map Rule.pattern id) := by
  rw [firstAt, rules]
  induction s.patterns with
  | nil => rfl
  | cons p patterns ih =>
    rw [List.findSome?_cons, List.flatMap_cons, Rule.firstMatch_append, ih,
      ← firstMatch_alternatives p p.alternatives fun i => i]
    cases Rule.firstMatch (p.alternatives.mapIdx fun i selectors => ⟨p, i, selectors⟩) tokens <;>
      rfl

theorem firstAt_eq_some {tokens : List Token} {r : Rule} {count : Nat}
    (h : Rule.firstMatch s.rules tokens = some (r, count)) :
    s.firstAt tokens = some (r.pattern, count) := by
  rw [firstAt_eq, h]
  rfl

theorem firstAt_eq_none {tokens : List Token} (h : Rule.firstMatch s.rules tokens = none) :
    s.firstAt tokens = none := by
  rw [firstAt_eq, h]
  rfl

/-- Where no rule matches, no alternative of any pattern does. -/
theorem matchAt?_eq_none {tokens : List Token} (h : Rule.firstMatch s.rules tokens = none) :
    ∀ p ∈ s.patterns, ∀ selectors ∈ p.alternatives, p.matchAt? selectors tokens = none := by
  intro p hp selectors hselectors
  have hpattern := List.findSome?_eq_none_iff.1 (firstAt_eq_none h) p hp
  have halternative := List.findSome?_eq_none_iff.1 hpattern selectors hselectors
  exact Option.map_eq_none_iff.1 halternative

end PatternSet

/-! ## A pass over the tokens -/

/-- The token that gathers a run of tokens, of which `t` is the first. -/
def Token.gathered (name : String) (t : Token) (run : List Token) : Token :=
  .group (.composite name) (t.span.merge (run.getLastD t).span)
    (.join none ((t :: run).map Token.lexeme)) (t :: run)

theorem Token.composite?_cons (name : String) (t : Token) (run : List Token) :
    composite? name (t :: run) = some (gathered name t run) := by
  rw [composite?, List.head?_cons, List.getLast?_cons, gathered, List.getLastD_eq_getLast?]

namespace Fold

variable {rules : List Rule} {s : PatternSet}

/-- The position is one of those that the fold gathers. -/
def Covers (f : Fold) (pos : Nat) : Prop := f.start ≤ pos ∧ pos < f.start + f.count

/-- A pass over tokens of which the first stands at a position records folds: where no rule matches
it goes on with the next token, and else behind the run that is matched. -/
inductive Passes (rules : List Rule) : Nat → List Token → List Fold → Prop
  | nil {pos : Nat} : Passes rules pos [] []
  | skip {pos : Nat} {t : Token} {ts : List Token} {folds : List Fold}
    (hnone : Rule.firstMatch rules (t :: ts) = none) (h : Passes rules (pos + 1) ts folds) :
    Passes rules pos (t :: ts) folds
  | fold {pos : Nat} {t : Token} {run ts : List Token} {r : Rule} {folds : List Fold}
    (hmatch : Rule.firstMatch rules (t :: (run ++ ts)) = some (r, run.length + 1))
    (h : Passes rules (pos + (run.length + 1)) ts folds) :
    Passes rules pos (t :: (run ++ ts))
      (⟨pos, run.length + 1, r.pattern.priority, r.pattern.name⟩ :: folds)

theorem collect_covered (rules : List Rule) (seen : List Fold) (pos : Nat)
    (run ts : List Token) :
    collect rules seen pos run.length (run ++ ts) =
      collect rules seen (pos + run.length) 0 ts := by
  induction run generalizing pos with
  | nil => rfl
  | cons t run ih =>
    rw [List.cons_append, List.length_cons, collect, ih, Nat.add_assoc, Nat.add_comm 1]

/-- What is collected is what one pass over the tokens records. -/
theorem exists_passes (s : PatternSet) : (pos : Nat) → (ts : List Token) →
    ∃ folds, Passes s.rules pos ts folds ∧
      ∀ seen, collect s.rules seen pos 0 ts = seen.reverse ++ folds
  | _, [] => ⟨[], .nil, fun seen => by rw [collect, List.append_nil]⟩
  | pos, t :: ts => by
    cases hmatch : Rule.firstMatch s.rules (t :: ts) with
    | none =>
      obtain ⟨folds, hpasses, hcollect⟩ := exists_passes s (pos + 1) ts
      refine ⟨folds, .skip hmatch hpasses, fun seen => ?_⟩
      rw [collect, hmatch]
      exact hcollect seen
    | some found =>
      obtain ⟨r, count⟩ := found
      obtain ⟨hpos, hle⟩ := PatternSet.firstMatch_bounds hmatch
      -- the run is the rest of the match behind its first token
      obtain ⟨run, rest, hsplit, hlength⟩ :
          ∃ run rest, ts = run ++ rest ∧ run.length + 1 = count := by
        refine ⟨ts.take (count - 1), ts.drop (count - 1), (List.take_append_drop _ _).symm, ?_⟩
        rw [List.length_cons] at hle
        rw [List.length_take]
        omega
      obtain ⟨folds, hpasses, hcollect⟩ := exists_passes s (pos + (run.length + 1)) rest
      subst hsplit hlength
      refine ⟨_, .fold hmatch hpasses, fun seen => ?_⟩
      rw [collect, hmatch]
      simp only [record, Nat.add_sub_cancel, collect_covered]
      rw [if_neg (Nat.succ_ne_zero _), Nat.add_assoc, Nat.add_comm 1, hcollect, List.reverse_cons,
        List.append_assoc]
      rfl
termination_by _ ts => ts.length
decreasing_by
  · simp
  · rw [hsplit, List.length_cons, List.length_append]
    omega

theorem passes_collect (s : PatternSet) (ts : List Token) :
    Passes s.rules 0 ts (collect s.rules [] 0 0 ts) := by
  obtain ⟨folds, hpasses, hcollect⟩ := exists_passes s 0 ts
  rw [hcollect]
  exact hpasses

/-- No rule matches at a token that no fold covers. -/
theorem Passes.firstMatch_of_uncovered {pos : Nat} {ts : List Token} {folds : List Fold}
    (h : Passes rules pos ts folds) {i : Nat} (hi : i < ts.length)
    (huncovered : ∀ f ∈ folds, ¬ f.Covers (pos + i)) :
    Rule.firstMatch rules (ts.drop i) = none := by
  induction h generalizing i with
  | nil => cases hi
  | skip hnone _ ih =>
    cases i with
    | zero => exact hnone
    | succ i =>
      refine ih (Nat.lt_of_succ_lt_succ hi) fun f hf => ?_
      rw [Nat.add_assoc, Nat.add_comm 1]
      exact huncovered f hf
  | @fold pos t run ts r folds _ _ ih =>
    have hbehind : run.length + 1 ≤ i := Nat.le_of_not_lt fun hlt =>
      huncovered _ List.mem_cons_self ⟨Nat.le_add_right _ _, Nat.add_lt_add_left hlt _⟩
    obtain ⟨j, rfl⟩ := Nat.exists_eq_add_of_le hbehind
    rw [Nat.add_right_comm, List.drop_succ_cons, List.drop_length_add_append]
    refine ih ?_ fun f hf => ?_
    · rw [List.length_cons, List.length_append] at hi
      omega
    · rw [Nat.add_assoc]
      exact huncovered f (List.mem_cons_of_mem _ hf)

/-! ## Folds that are all applied -/

/-- All folds are applied to tokens of which the first stands at a position: each has gathered the
run that it is for, and all other tokens stay. -/
inductive Applied : Nat → List Fold → List Token → List Token → Prop
  | done {pos : Nat} {ts : List Token} : Applied pos [] ts ts
  | fold {pos : Nat} {f : Fold} {before : List Token} {t : Token} {run rest : List Token}
    {folds : List Fold} {us : List Token} (hstart : f.start = pos + before.length)
    (hcount : f.count = run.length + 1) (h : Applied (f.start + f.count) folds rest us) :
    Applied pos (f :: folds) (before ++ t :: (run ++ rest))
      (before ++ Token.gathered f.name t run :: us)

theorem Applied.cons {pos : Nat} {folds : List Fold} {ts us : List Token}
    (h : Applied (pos + 1) folds ts us) (t : Token) : Applied pos folds (t :: ts) (t :: us) := by
  cases h with
  | done => exact .done
  | @fold _ f before u run rest _ us hstart hcount h =>
    refine @Applied.fold _ f (t :: before) u run rest _ us ?_ hcount h
    rw [hstart, List.length_cons, Nat.add_assoc, Nat.add_comm 1]

theorem Applied.start_le {pos : Nat} {folds : List Fold} {ts us : List Token}
    (h : Applied pos folds ts us) : ∀ f ∈ folds, pos ≤ f.start := by
  induction h with
  | done => exact nofun
  | @fold pos f before t run rest folds us hstart _ _ ih =>
    intro g hg
    rcases List.mem_cons.1 hg with rfl | hg
    · omega
    · have hle := ih g hg
      omega

theorem Applied.pairwise {pos : Nat} {folds : List Fold} {ts us : List Token}
    (h : Applied pos folds ts us) : folds.Pairwise fun a b => a.start < b.start := by
  induction h with
  | done => exact .nil
  | @fold pos f before t run rest folds us hstart hcount h ih =>
    refine .cons (fun g hg => ?_) ih
    have hle := h.start_le g hg
    omega

/-- Sorting leaves the folds as they are. -/
theorem Applied.mergeSort_eq {pos : Nat} {folds : List Fold} {ts us : List Token}
    (h : Applied pos folds ts us) : folds.mergeSort appliedBefore = folds := by
  refine List.mergeSort_of_pairwise (h.pairwise.imp fun {a b} hlt => ?_)
  rw [appliedBefore, decide_eq_true hlt, Bool.true_or]

theorem Applied.applyFrom_eq {pos : Nat} {folds : List Fold} {ts us : List Token}
    (h : Applied pos folds ts us) (out : List Token) :
    applyFrom out pos folds ts = out.reverse ++ us := by
  induction h generalizing out with
  | done => rw [applyFrom, List.reverseAux_eq]
  | @fold pos f before t run rest folds us hstart hcount _ ih =>
    have hbefore : f.start - pos = before.length := by omega
    rw [applyFrom, if_neg (by omega), hbefore, List.drop_left, List.take_left, hcount]
    have htake : (t :: (run ++ rest)).take (run.length + 1) = t :: run := by
      rw [List.take_succ_cons, List.take_left]
    have hdrop : (t :: (run ++ rest)).drop (run.length + 1) = rest := by
      rw [List.drop_succ_cons, List.drop_left]
    rw [hcount] at ih
    simp only [htake, hdrop, Token.composite?_cons, List.length_cons, ih]
    simp [List.reverseAux_eq]

theorem Applied.apply_eq {folds : List Fold} {ts us : List Token} (h : Applied 0 folds ts us) :
    apply folds ts = us := by
  unfold apply
  split
  · next hempty =>
    cases List.isEmpty_iff.1 hempty
    cases h
    rfl
  · rw [h.mergeSort_eq, h.applyFrom_eq]
    rfl

end Fold

/-! ## From left to right -/

namespace PatternSet

/-- One pass from left to right: the first pattern that matches at a token gathers the run, and the
pass goes on behind it; a token at which no pattern matches stays. -/
def gather (s : PatternSet) : List Token → List Token
  | [] => []
  | t :: ts =>
    match s.firstAt (t :: ts) with
    | some (p, count) =>
      Token.gathered p.name t (ts.take (count - 1)) :: gather s (ts.drop (count - 1))
    | none => t :: gather s ts
termination_by ts => ts.length
decreasing_by
  · simp only [List.length_drop, List.length_cons]
    omega
  · simp

mutual

/-- The token with its children matched from left to right, if it is a block. -/
def rewriteInside (s : PatternSet) : Token → Token
  | .group (.block d) span lexeme children =>
    .group (.block d) span lexeme (s.gather (rewriteEach s children))
  | .group (.error e) span lexeme children => .group (.error e) span lexeme children
  | .group (.composite name) span lexeme children => .group (.composite name) span lexeme children
  | .leaf kind span lexeme => .leaf kind span lexeme

/-- The tokens, each with its children matched from left to right, if it is a block. -/
def rewriteEach (s : PatternSet) : List Token → List Token
  | [] => []
  | t :: ts => rewriteInside s t :: rewriteEach s ts

end

/-- The tokens matched from left to right, after those inside their blocks at every depth. -/
def rewrite (s : PatternSet) (tokens : List Token) : List Token := s.gather (s.rewriteEach tokens)

/-- What a pass records is what the pass from left to right gathers. -/
theorem applied_gather {s : PatternSet} {pos : Nat} {ts : List Token} {folds : List Fold}
    (h : Fold.Passes s.rules pos ts folds) : Fold.Applied pos folds ts (s.gather ts) := by
  induction h with
  | nil =>
    rw [gather]
    exact .done
  | @skip pos t ts folds hnone _ ih =>
    rw [gather, firstAt_eq_none hnone]
    exact ih.cons t
  | @fold pos t run ts r folds hmatch _ ih =>
    rw [gather, firstAt_eq_some hmatch]
    simp only [Nat.add_sub_cancel, List.take_left, List.drop_left]
    exact @Fold.Applied.fold pos ⟨pos, run.length + 1, r.pattern.priority, r.pattern.name⟩ [] t run
      ts folds _ rfl rfl ih

theorem applied_collect (s : PatternSet) (ts : List Token) :
    Fold.Applied 0 (Fold.collect s.rules [] 0 0 ts) ts (s.gather ts) :=
  applied_gather (Fold.passes_collect s ts)

theorem foldTokens_eq (s : PatternSet) (ts : List Token) :
    Fold.foldTokens s.rules ts = s.gather ts := (s.applied_collect ts).apply_eq

theorem foldInsideAll_eq (s : PatternSet) : (ts : List Token) → (out : List Token) →
    Token.foldInsideAll s.rules out ts = out.reverse ++ s.rewriteEach ts
  | [], out => by rw [Token.foldInsideAll, rewriteEach, List.append_nil]
  | t :: ts, out => by
    have hself : Token.foldInside s.rules t = s.rewriteInside t := by
      match t with
      | .leaf kind span lexeme => rw [Token.foldInside, rewriteInside]
      | .group (.error e) span lexeme children => rw [Token.foldInside, rewriteInside]; exact nofun
      | .group (.composite name) span lexeme children =>
        rw [Token.foldInside, rewriteInside]; exact nofun
      | .group (.block d) span lexeme children =>
        rw [Token.foldInside, rewriteInside, foldInsideAll_eq s children [], foldTokens_eq]
        rfl
    rw [Token.foldInsideAll, rewriteEach, foldInsideAll_eq s ts, hself, List.reverse_cons,
      List.append_assoc]
    rfl

theorem apply_eq (s : PatternSet) (tokens : List Token) : s.apply tokens = s.rewrite tokens := by
  rw [apply, foldInsideAll_eq, foldTokens_eq]
  rfl

/-- To apply patterns is to match them from left to right, inside the blocks first. In each list of
tokens every match that is recorded is applied, a match takes at least one token, and no alternative
of any pattern matches at a token that is in no run gathered. -/
theorem apply_eq_rewrite (s : PatternSet) (tokens : List Token) :
    s.apply tokens = s.rewrite tokens ∧
    ∀ level : List Token,
      let folds := Fold.collect s.rules [] 0 0 level
      Fold.Applied 0 folds level (Fold.foldTokens s.rules level) ∧
      (∀ p count, s.firstAt level = some (p, count) → 1 ≤ count ∧ count ≤ level.length) ∧
      ∀ i < level.length, (∀ f ∈ folds, ¬ f.Covers i) →
        ∀ p ∈ s.patterns, ∀ selectors ∈ p.alternatives,
          p.matchAt? selectors (level.drop i) = none := by
  refine ⟨s.apply_eq tokens, fun level => ⟨?_, ?_, ?_⟩⟩
  · rw [foldTokens_eq]
    exact s.applied_collect level
  · intro p count hfirst
    rw [firstAt_eq] at hfirst
    obtain ⟨⟨r, n⟩, hmatch, hpair⟩ := Option.map_eq_some_iff.1 hfirst
    cases hpair
    exact firstMatch_bounds hmatch
  · intro i hi huncovered
    refine matchAt?_eq_none ((Fold.passes_collect s level).firstMatch_of_uncovered hi ?_)
    rw [Nat.zero_add]
    exact huncovered

end PatternSet

end TokenTree
