import TokenTree.Pattern.Trace
import TokenTree.Proofs.Composites

/-!
# Traces are exact

A trace is a record of what is done when patterns are applied, and to record it changes nothing
(`PatternSet.applyTraced_exact`). The attempts are those of one pass from left to right over each
list of tokens, a list inside a block before the list that holds the block
(`PatternSet.attempts`): at each token that the pass comes to the alternatives are tried in their
order up to the first that matches (`Rule.attempts`).

What an attempt says of its selectors agrees with how it ended (`Attempt.Records`). So a near miss
is a failure behind the first selector. And every match is a composite of what comes out, and every
composite that was not there before is a match, so that the matches of a pattern can be counted in
either place (`PatternSet.composites_rewrite`).
-/

namespace TokenTree

open Token

/-! ## One attempt -/

namespace Attempt

/-- The attempt is the record of a match of the rule at the start of the tokens. -/
structure Records (r : Rule) (tokens : List Token) (a : Attempt) : Prop where
  pattern : a.pattern = r.pattern.name
  alternative : a.alternative = r.alternative
  offset : tokens.head?.map (·.span.start) = some a.offset
  outcome : a.outcome = r.matchTokens tokens
  matched : ∀ n, a.outcome = .ok n →
    a.steps.map SelectorStep.passed = .replicate r.selectors.length true
  mismatch : ∀ k, a.outcome = .error ⟨.mismatch, k⟩ →
    k < r.selectors.length ∧ a.steps.map SelectorStep.passed = .replicate k true ++ [false]
  exhausted : ∀ k, a.outcome = .error ⟨.exhausted, k⟩ →
    k < r.selectors.length ∧ a.steps.map SelectorStep.passed = .replicate k true
  /-- Each step is what a selector made of a token. -/
  step : ∀ (i : Nat) (step : SelectorStep), a.steps[i]? = some step →
    ∃ selector t, r.selectors[i]? = some selector ∧ t ∈ tokens ∧
      step = ⟨i, selector.description, t.tag, t.span, selector.holds t⟩

/-- The attempt failed behind its first selector. -/
def failsBehindFirst (a : Attempt) : Bool :=
  match a.outcome with
  | .ok _ => false
  | .error f => 1 ≤ f.selector

theorem passed_eq (a : Attempt) : a.passed = (a.steps.map SelectorStep.passed).count true := by
  rw [Attempt.passed, List.count, List.countP_map]
  exact congrArg (List.countP · a.steps) (funext fun step => by simp)

theorem Records.isNearMiss_eq {a : Attempt} {r : Rule} {tokens : List Token}
    (h : a.Records r tokens) : a.isNearMiss = a.failsBehindFirst := by
  unfold isNearMiss failsBehindFirst isMatch
  cases houtcome : a.outcome with
  | ok count => rfl
  | error f =>
    obtain ⟨reason, k⟩ := f
    have hpassed : a.passed = k := by
      rw [passed_eq]
      cases reason with
      | mismatch =>
        rw [(h.mismatch k houtcome).2]
        simp
      | exhausted =>
        rw [(h.exhausted k houtcome).2]
        simp
    rw [hpassed]
    cases k <;> simp

end Attempt

namespace Rule

variable {skips : Bool} {index consumed : Nat} {selectors : List Selector} {tokens : List Token}

theorem mem_of_mem_skip {t : Token} (h : t ∈ (skip skips index tokens).2) : t ∈ tokens := by
  unfold skip at h
  split at h
  · exact (List.dropWhile_sublist _).mem h
  · exact h

theorem matchFrom_failure {f : Failure}
    (h : matchFrom skips index consumed selectors tokens = .error f) :
    index ≤ f.selector ∧ f.selector < index + selectors.length := by
  induction selectors generalizing index consumed tokens with
  | nil => cases h
  | cons selector selectors ih =>
    rw [List.length_cons]
    rw [matchFrom] at h
    generalize skip skips index tokens = skipped at h
    obtain ⟨passed, rest⟩ := skipped
    cases rest with
    | nil =>
      cases h
      exact ⟨Nat.le_refl _, by simp only; omega⟩
    | cons t rest =>
      by_cases hholds : selector.holds t = true
      · have hbounds := ih ((if_pos hholds).symm.trans h)
        omega
      · cases (if_neg hholds).symm.trans h
        exact ⟨Nat.le_refl _, by simp only; omega⟩

/-- What `count` selectors, from the one at `index` on, made of their tokens if they ended so. -/
def verdicts (index count : Nat) : Except Failure Nat → List Bool
  | .ok _ => .replicate count true
  | .error ⟨.mismatch, k⟩ => .replicate (k - index) true ++ [false]
  | .error ⟨.exhausted, k⟩ => .replicate (k - index) true

theorem verdicts_succ {count : Nat} {outcome : Except Failure Nat}
    (h : ∀ f, outcome = .error f → index < f.selector) :
    verdicts index (count + 1) outcome = true :: verdicts (index + 1) count outcome := by
  cases outcome with
  | ok n => rfl
  | error f =>
    obtain ⟨reason, k⟩ := f
    have hlt : index < k := h _ rfl
    obtain ⟨j, rfl⟩ := Nat.exists_eq_add_of_lt hlt
    have hbehind : index + j + 1 - index = j + 1 := by omega
    have hrest : index + j + 1 - (index + 1) = j := by omega
    cases reason <;> simp [verdicts, hbehind, hrest, List.replicate_succ]

/-- To record the steps of a match does not change how it ends, and the steps agree with that. -/
theorem traceFrom_eq (skips : Bool) (index consumed : Nat) (selectors : List Selector)
    (tokens : List Token) :
    (traceFrom skips index consumed selectors tokens).2 =
        matchFrom skips index consumed selectors tokens ∧
      (traceFrom skips index consumed selectors tokens).1.map SelectorStep.passed =
        verdicts index selectors.length (matchFrom skips index consumed selectors tokens) := by
  induction selectors generalizing index consumed tokens with
  | nil => exact ⟨rfl, rfl⟩
  | cons selector selectors ih =>
    rw [traceFrom, matchFrom]
    generalize skip skips index tokens = skipped
    obtain ⟨passed, rest⟩ := skipped
    cases rest with
    | nil => simp [verdicts]
    | cons t rest =>
      by_cases hholds : selector.holds t = true
      · obtain ⟨houtcome, hsteps⟩ := ih (index + 1) (consumed + passed + 1) rest
        simp only [hholds, if_true]
        refine ⟨houtcome, ?_⟩
        rw [List.map_cons, hsteps, List.length_cons, verdicts_succ]
        intro f hf
        exact (matchFrom_failure hf).1
      · simp [hholds, verdicts]

/-- Each step is about the selector that has its index, and about one of the tokens. -/
theorem step_traceFrom {i : Nat} {step : SelectorStep}
    (h : (traceFrom skips index consumed selectors tokens).1[i]? = some step) :
    ∃ selector t, selectors[i]? = some selector ∧ t ∈ tokens ∧
      step = ⟨index + i, selector.description, t.tag, t.span, selector.holds t⟩ := by
  induction selectors generalizing index consumed tokens i with
  | nil => simp [traceFrom] at h
  | cons selector selectors ih =>
    rw [traceFrom] at h
    have hsub (t : Token) (ht : t ∈ (skip skips index tokens).2) := mem_of_mem_skip ht
    generalize skip skips index tokens = skipped at h hsub
    obtain ⟨passed, rest⟩ := skipped
    cases rest with
    | nil => simp at h
    | cons t rest =>
      have ht := hsub t List.mem_cons_self
      by_cases hholds : selector.holds t = true
      · simp only [hholds, if_true] at h
        cases i with
        | zero =>
          cases h
          exact ⟨selector, t, rfl, ht, by rw [hholds, Nat.add_zero]⟩
        | succ i =>
          obtain ⟨selector', u, hselector, hu, hstep⟩ := ih h
          refine ⟨selector', u, hselector, hsub u (List.mem_cons_of_mem t hu), ?_⟩
          rw [hstep, Nat.add_assoc, Nat.add_comm 1]
      · simp only [hholds] at h
        cases i with
        | zero =>
          cases h
          exact ⟨selector, t, rfl, ht, by simp [hholds]⟩
        | succ i => cases h

theorem attempt_eq (r : Rule) (depth pos : Nat) (t : Token) (ts : List Token) :
    r.attempt depth pos t ts =
      ⟨r.pattern.name, r.alternative, pos, t.span.start, depth,
        (traceFrom r.pattern.skipsWhitespace 0 0 r.selectors (t :: ts)).1,
        r.matchTokens (t :: ts)⟩ := by
  rw [attempt, matchTokens, ← (traceFrom_eq _ _ _ _ _).1]

theorem attempt_records (r : Rule) (depth pos : Nat) (t : Token) (ts : List Token) :
    (r.attempt depth pos t ts).Records r (t :: ts) := by
  rw [attempt_eq]
  obtain ⟨-, hpassed⟩ := traceFrom_eq r.pattern.skipsWhitespace 0 0 r.selectors (t :: ts)
  rw [← matchTokens] at hpassed
  have hfailure (f : Failure) (hf : r.matchTokens (t :: ts) = .error f) :
      f.selector < r.selectors.length := by
    have hbounds := matchFrom_failure hf
    omega
  refine ⟨rfl, rfl, rfl, rfl, ?_, ?_, ?_, ?_⟩
  · intro n (hn : r.matchTokens (t :: ts) = .ok n)
    rw [hpassed, hn]
    rfl
  · intro k (hk : r.matchTokens (t :: ts) = .error ⟨.mismatch, k⟩)
    refine ⟨hfailure _ hk, ?_⟩
    rw [hpassed, hk]
    rfl
  · intro k (hk : r.matchTokens (t :: ts) = .error ⟨.exhausted, k⟩)
    refine ⟨hfailure _ hk, ?_⟩
    rw [hpassed, hk]
    rfl
  · intro i step hstep
    obtain ⟨selector, u, hselector, hu, rfl⟩ := step_traceFrom hstep
    exact ⟨selector, u, hselector, hu, by rw [Nat.zero_add]⟩

/-! ## The attempts at one token -/

/-- The attempts at the first of some tokens: to match each of the rules, up to the first that
matches. -/
def attempts (rules : List Rule) (depth pos : Nat) (t : Token) (ts : List Token) : Trace :=
  let all := rules.map (·.attempt depth pos t ts)
  all.takeWhile (!·.isMatch) ++ (all.find? (·.isMatch)).toList

variable {rules : List Rule} {r : Rule} {depth pos : Nat} {t : Token} {ts : List Token}

theorem isMatch_attempt :
    (r.attempt depth pos t ts).isMatch = (r.matchTokens (t :: ts)).toOption.isSome := by
  rw [attempt_eq, Attempt.isMatch]
  cases r.matchTokens (t :: ts) <;> rfl

theorem attempts_of_match {count : Nat} (h : r.matchTokens (t :: ts) = .ok count) :
    attempts (r :: rules) depth pos t ts = [r.attempt depth pos t ts] := by
  have hmatch : (r.attempt depth pos t ts).isMatch = true := by rw [isMatch_attempt, h]; rfl
  simp [attempts, hmatch]

theorem attempts_of_failure {f : Failure} (h : r.matchTokens (t :: ts) = .error f) :
    attempts (r :: rules) depth pos t ts =
      r.attempt depth pos t ts :: attempts rules depth pos t ts := by
  have hmatch : (r.attempt depth pos t ts).isMatch = false := by rw [isMatch_attempt, h]; rfl
  simp [attempts, hmatch]

theorem firstMatch_cons (r : Rule) (rules : List Rule) (tokens : List Token) :
    firstMatch (r :: rules) tokens =
      match r.matchTokens tokens with
      | .ok count => some (r, count)
      | .error _ => firstMatch rules tokens := by
  rw [firstMatch, List.findSome?_cons]
  cases r.matchTokens tokens <;> rfl

theorem firstMatchTraced_eq (rules : List Rule) (depth pos : Nat) (t : Token) (ts : List Token)
    (trace : Trace) :
    firstMatchTraced depth pos t ts trace rules =
      (firstMatch rules (t :: ts), (attempts rules depth pos t ts).reverse ++ trace) := by
  induction rules generalizing trace with
  | nil => rfl
  | cons r rules ih =>
    have houtcome : (r.attempt depth pos t ts).outcome = r.matchTokens (t :: ts) := by
      rw [attempt_eq]
    rw [firstMatchTraced, firstMatch_cons, houtcome]
    cases hmatch : r.matchTokens (t :: ts) with
    | ok count =>
      rw [attempts_of_match hmatch]
      rfl
    | error f =>
      rw [attempts_of_failure hmatch, List.reverse_cons, List.append_assoc]
      exact ih _

theorem mem_attempts {a : Attempt} (h : a ∈ attempts rules depth pos t ts) :
    ∃ r ∈ rules, a = r.attempt depth pos t ts := by
  have hall : a ∈ rules.map (·.attempt depth pos t ts) := by
    rcases List.mem_append.1 h with h | h
    · exact (List.takeWhile_sublist _).mem h
    · exact List.mem_of_find?_eq_some (Option.mem_toList.1 h)
  obtain ⟨r, hr, rfl⟩ := List.mem_map.1 hall
  exact ⟨r, hr, rfl⟩

end Rule

/-! ## The attempts of a pass -/

namespace PatternSet

/-- The attempts of one pass from left to right over tokens of which the first stands at position
`pos` of a list with `depth` blocks around it. The pass goes on behind what is matched. -/
def attemptsFrom (s : PatternSet) (depth pos : Nat) : List Token → Trace
  | [] => []
  | t :: ts =>
    Rule.attempts s.rules depth pos t ts ++
      match s.firstAt (t :: ts) with
      | some (_, count) => attemptsFrom s depth (pos + count) (ts.drop (count - 1))
      | none => attemptsFrom s depth (pos + 1) ts
termination_by ts => ts.length
decreasing_by
  · simp only [List.length_drop, List.length_cons]
    omega
  · simp

mutual

/-- The attempts inside a token: if it is a block, those inside each of its children and then those
of a pass over them. -/
def attemptsInside (s : PatternSet) (depth : Nat) : Token → Trace
  | .group (.block _) _ _ children =>
    attemptsEach s (depth + 1) children ++ s.attemptsFrom (depth + 1) 0 (s.rewriteEach children)
  | .group (.error _) _ _ _ => []
  | .group (.composite _) _ _ _ => []
  | .leaf _ _ _ => []

/-- The attempts inside each of the tokens. -/
def attemptsEach (s : PatternSet) (depth : Nat) : List Token → Trace
  | [] => []
  | t :: ts => attemptsInside s depth t ++ attemptsEach s depth ts

end

/-- The attempts when the patterns are applied: those inside each of the tokens, and then those of
a pass over them. -/
def attempts (s : PatternSet) (tokens : List Token) : Trace :=
  s.attemptsEach 0 tokens ++ s.attemptsFrom 0 0 (s.rewriteEach tokens)

theorem collectTraced_eq (s : PatternSet) (depth : Nat) (seen : List Fold) (pos covered : Nat)
    (trace : Trace) (ts : List Token) :
    Fold.collectTraced s.rules depth seen pos covered trace ts =
      (Fold.collect s.rules seen pos covered ts,
        (s.attemptsFrom depth (pos + covered) (ts.drop covered)).reverse ++ trace) := by
  induction ts generalizing seen pos covered trace with
  | nil =>
    rw [Fold.collectTraced, Fold.collect, List.drop_nil, attemptsFrom]
    rfl
  | cons t ts ih =>
    cases covered with
    | succ covered =>
      rw [Fold.collectTraced, Fold.collect, ih, List.drop_succ_cons, Nat.add_assoc, Nat.add_comm 1]
    | zero =>
      rw [Fold.collectTraced, Fold.collect, Rule.firstMatchTraced_eq, List.drop_zero, Nat.add_zero,
        attemptsFrom, List.reverse_append, List.append_assoc]
      cases hmatch : Rule.firstMatch s.rules (t :: ts) with
      | none =>
        rw [firstAt_eq_none hmatch]
        exact ih seen (pos + 1) 0 _
      | some found =>
        obtain ⟨r, count⟩ := found
        have hbounds := firstMatch_bounds hmatch
        have hbehind : pos + 1 + (count - 1) = pos + count := by omega
        rw [firstAt_eq_some hmatch]
        simp only [ih, hbehind, Nat.add_zero]

theorem foldTokensTraced_eq (s : PatternSet) (depth : Nat) (trace : Trace) (ts : List Token) :
    Fold.foldTokensTraced s.rules depth trace ts =
      (s.gather ts, (s.attemptsFrom depth 0 ts).reverse ++ trace) := by
  rw [Fold.foldTokensTraced, collectTraced_eq, ← s.foldTokens_eq]
  rfl

mutual

theorem foldInsideTraced_eq (s : PatternSet) : (t : Token) → (depth : Nat) → (trace : Trace) →
    Token.foldInsideTraced s.rules depth trace t =
      (s.rewriteInside t, (s.attemptsInside depth t).reverse ++ trace)
  | .leaf kind span lexeme, depth, trace => by
    rw [Token.foldInsideTraced, rewriteInside, attemptsInside]
    rfl
  | .group (.error e) span lexeme children, depth, trace => by
    rw [Token.foldInsideTraced, rewriteInside, attemptsInside]
    · rfl
    · exact nofun
  | .group (.composite name) span lexeme children, depth, trace => by
    rw [Token.foldInsideTraced, rewriteInside, attemptsInside]
    · rfl
    · exact nofun
  | .group (.block d) span lexeme children, depth, trace => by
    rw [Token.foldInsideTraced, rewriteInside, attemptsInside,
      foldInsideAllTraced_eq s children (depth + 1) trace [], List.reverse_append,
      List.append_assoc]
    simp only [foldTokensTraced_eq]
    rfl

theorem foldInsideAllTraced_eq (s : PatternSet) : (ts : List Token) → (depth : Nat) →
    (trace : Trace) → (out : List Token) →
    Token.foldInsideAllTraced s.rules depth trace out ts =
      (out.reverse ++ s.rewriteEach ts, (s.attemptsEach depth ts).reverse ++ trace)
  | [], depth, trace, out => by
    rw [Token.foldInsideAllTraced, rewriteEach, attemptsEach, List.append_nil]
    rfl
  | t :: ts, depth, trace, out => by
    rw [Token.foldInsideAllTraced, rewriteEach, attemptsEach, foldInsideTraced_eq s t]
    simp only [foldInsideAllTraced_eq s ts]
    rw [List.reverse_cons, List.append_assoc, List.reverse_append, List.append_assoc]
    rfl

end

theorem applyTraced_eq (s : PatternSet) (tokens : List Token) :
    s.applyTraced tokens = (s.apply tokens, s.attempts tokens) := by
  rw [s.apply_eq, applyTraced, foldInsideAllTraced_eq]
  simp only [foldTokensTraced_eq]
  simp [attempts, rewrite]

/-- The attempt is to match one of the rules. -/
def Tries (s : PatternSet) (a : Attempt) : Prop := ∃ r ∈ s.rules, ∃ tokens, a.Records r tokens

theorem tries_attemptsFrom (s : PatternSet) (depth : Nat) : (pos : Nat) → (ts : List Token) →
    ∀ a ∈ s.attemptsFrom depth pos ts, s.Tries a
  | _, [] => by
    rw [attemptsFrom]
    exact nofun
  | pos, t :: ts => by
    intro a ha
    rw [attemptsFrom] at ha
    rcases List.mem_append.1 ha with ha | ha
    · obtain ⟨r, hr, rfl⟩ := Rule.mem_attempts ha
      exact ⟨r, hr, t :: ts, Rule.attempt_records r depth pos t ts⟩
    · split at ha
      · exact tries_attemptsFrom s depth _ _ a ha
      · exact tries_attemptsFrom s depth _ _ a ha
termination_by _ ts => ts.length
decreasing_by
  · simp only [List.length_drop, List.length_cons]
    omega
  · simp

theorem tries_attemptsEach (s : PatternSet) : (depth : Nat) → (ts : List Token) →
    ∀ a ∈ s.attemptsEach depth ts, s.Tries a
  | _, [] => by
    rw [attemptsEach]
    exact nofun
  | depth, .leaf kind span lexeme :: ts => by
    rw [attemptsEach, attemptsInside]
    exact tries_attemptsEach s depth ts
  | depth, .group (.error e) span lexeme children :: ts => by
    rw [attemptsEach, attemptsInside]
    exact tries_attemptsEach s depth ts
  | depth, .group (.composite name) span lexeme children :: ts => by
    rw [attemptsEach, attemptsInside]
    exact tries_attemptsEach s depth ts
  | depth, .group (.block d) span lexeme children :: ts => by
    intro a ha
    rw [attemptsEach, attemptsInside, List.append_assoc] at ha
    rcases List.mem_append.1 ha with ha | ha
    · exact tries_attemptsEach s (depth + 1) children a ha
    rcases List.mem_append.1 ha with ha | ha
    · exact s.tries_attemptsFrom (depth + 1) 0 _ a ha
    · exact tries_attemptsEach s depth ts a ha

theorem tries_attempts (s : PatternSet) (tokens : List Token) :
    ∀ a ∈ s.attempts tokens, s.Tries a := by
  intro a ha
  rcases List.mem_append.1 ha with ha | ha
  · exact s.tries_attemptsEach 0 tokens a ha
  · exact s.tries_attemptsFrom 0 0 _ a ha

end PatternSet

/-! ## Matches and composites -/

/-- The number of composites of that name in the forest, at any depth. -/
def Token.composites (name : String) (ts : List Token) : Nat :=
  (preorderAll ts).countP (·.groupKind? == some (.composite name))

namespace Token

variable {name : String}

theorem composites_append (ts us : List Token) :
    composites name (ts ++ us) = composites name ts + composites name us := by
  rw [composites, preorderAll_append, List.countP_append]
  rfl

theorem composites_cons (t : Token) (ts : List Token) :
    composites name (t :: ts) =
      composites name t.children + composites name ts +
        if t.groupKind? = some (.composite name) then 1 else 0 := by
  simp [composites, List.countP_cons]

theorem composites_gathered (other : String) (t : Token) (run ts : List Token) :
    composites name (gathered other t run :: ts) =
      composites name (t :: run) + composites name ts + if other = name then 1 else 0 := by
  rw [composites_cons]
  simp [gathered, groupKind?, children]

theorem composites_eq_zero_of_plain {ts : List Token} (h : Plain ts) : composites name ts = 0 := by
  rw [composites, List.countP_eq_zero]
  intro t ht hname
  exact h t ((mem_preorderAll_iff ts).1 ht) name (beq_iff_eq.1 hname)

end Token

namespace Trace

theorem count_append (trace other : Trace) (name : String) :
    count (trace ++ other) name = count trace name + count other name := by
  rw [count, found, List.filter_append, List.countP_append]
  rfl

theorem mem_placeName {name other : String} {names : List String} :
    name ∈ placeName other names ↔ name = other ∨ name ∈ names := by
  induction names with
  | nil => rw [placeName, List.mem_singleton, or_iff_left List.not_mem_nil]
  | cons first names ih =>
    rw [placeName]
    split
    · exact List.mem_cons
    split
    · next heq =>
      subst heq
      rw [List.mem_cons, ← or_assoc, or_self]
    · rw [List.mem_cons, List.mem_cons, ih, or_left_comm]

theorem mem_foldl_placeName {name : String} {attempts : List Attempt} {names : List String} :
    name ∈ attempts.foldl (fun names a => placeName a.pattern names) names ↔
      name ∈ names ∨ name ∈ attempts.map Attempt.pattern := by
  induction attempts generalizing names with
  | nil => simp
  | cons a attempts ih =>
    rw [List.foldl_cons, ih, mem_placeName, List.map_cons, List.mem_cons, or_assoc, or_left_comm]

theorem getD_lookup_map {name : String} {names : List String} (f : String → Nat)
    (h : name ∉ names → f name = 0) :
    ((names.map fun name => (name, f name)).lookup name).getD 0 = f name := by
  induction names with
  | nil => exact (h List.not_mem_nil).symm
  | cons first names ih =>
    rw [List.map_cons, List.lookup_cons]
    by_cases heq : name = first
    · simp [heq]
    · rw [beq_false_of_ne heq]
      exact ih fun hname => h (List.not_mem_cons_of_ne_of_not_mem heq hname)

/-- The table has the number of matches of each name; a name that is not there has none. -/
theorem lookup_counts (trace : Trace) (name : String) :
    (trace.counts.lookup name).getD 0 = trace.count name := by
  refine getD_lookup_map trace.count fun hname => ?_
  rw [count, List.countP_eq_zero]
  intro a ha heq
  exact hname (mem_foldl_placeName.2 (Or.inr (List.mem_map.2 ⟨a, ha, beq_iff_eq.1 heq⟩)))

end Trace

theorem Rule.found_attempts (rules : List Rule) (depth pos : Nat) (t : Token) (ts : List Token) :
    Trace.found (attempts rules depth pos t ts) =
      ((firstMatch rules (t :: ts)).map (·.1.attempt depth pos t ts)).toList := by
  induction rules with
  | nil => rfl
  | cons r rules ih =>
    have hmatch : (r.attempt depth pos t ts).isMatch = (r.matchTokens (t :: ts)).toOption.isSome :=
      isMatch_attempt
    rw [firstMatch_cons]
    cases h : r.matchTokens (t :: ts) with
    | ok count =>
      rw [attempts_of_match h, Trace.found, List.filter_cons_of_pos (by rw [hmatch, h]; rfl)]
      rfl
    | error f =>
      rw [attempts_of_failure h, Trace.found, List.filter_cons_of_neg (by rw [hmatch, h]; nofun)]
      exact ih

theorem Rule.count_attempts (rules : List Rule) (depth pos : Nat) (t : Token) (ts : List Token)
    (name : String) :
    Trace.count (attempts rules depth pos t ts) name =
      match firstMatch rules (t :: ts) with
      | some (r, _) => if r.pattern.name = name then 1 else 0
      | none => 0 := by
  rw [Trace.count, found_attempts]
  cases firstMatch rules (t :: ts) with
  | none => rfl
  | some found => simp [attempt_eq, List.countP_cons]

namespace PatternSet

variable {name : String}

/-- Each match of a pass gathers a composite, and nothing else does. -/
theorem composites_gather (s : PatternSet) (depth : Nat) : (pos : Nat) → (ts : List Token) →
    composites name (s.gather ts) =
      composites name ts + Trace.count (s.attemptsFrom depth pos ts) name
  | _, [] => by
    rw [gather, attemptsFrom]
    rfl
  | pos, t :: ts => by
    rw [gather, attemptsFrom, Trace.count_append, Rule.count_attempts]
    cases hmatch : Rule.firstMatch s.rules (t :: ts) with
    | none =>
      rw [firstAt_eq_none hmatch]
      simp only [composites_cons, composites_gather s depth (pos + 1) ts]
      omega
    | some found =>
      obtain ⟨r, count⟩ := found
      rw [firstAt_eq_some hmatch]
      have hsplit : composites name (t :: ts) =
          composites name (t :: ts.take (count - 1)) + composites name (ts.drop (count - 1)) := by
        rw [← composites_append, List.cons_append, List.take_append_drop]
      simp only [composites_gathered, hsplit,
        composites_gather s depth (pos + count) (ts.drop (count - 1))]
      omega
termination_by _ ts => ts.length
decreasing_by
  · simp
  · simp only [List.length_drop, List.length_cons]
    omega

theorem composites_rewriteEach (s : PatternSet) : (depth : Nat) → (ts : List Token) →
    composites name (s.rewriteEach ts) =
      composites name ts + Trace.count (s.attemptsEach depth ts) name
  | _, [] => by
    rw [rewriteEach, attemptsEach]
    rfl
  | depth, .leaf kind span lexeme :: ts => by
    rw [rewriteEach, rewriteInside, attemptsEach, attemptsInside, List.nil_append, composites_cons,
      composites_cons, composites_rewriteEach s depth ts]
    omega
  | depth, .group (.error e) span lexeme children :: ts => by
    rw [rewriteEach, rewriteInside, attemptsEach, attemptsInside, List.nil_append, composites_cons,
      composites_cons, composites_rewriteEach s depth ts]
    omega
  | depth, .group (.composite other) span lexeme children :: ts => by
    rw [rewriteEach, rewriteInside, attemptsEach, attemptsInside, List.nil_append, composites_cons,
      composites_cons, composites_rewriteEach s depth ts]
    omega
  | depth, .group (.block d) span lexeme inside :: ts => by
    rw [rewriteEach, rewriteInside, attemptsEach, attemptsInside, composites_cons, composites_cons,
      composites_rewriteEach s depth ts, Trace.count_append, Trace.count_append]
    simp only [children, groupKind?, composites_gather s (depth + 1) 0,
      composites_rewriteEach s (depth + 1) inside, Option.some.injEq, reduceCtorEq, if_false]
    omega

/-- To apply patterns adds a composite for each match. -/
theorem composites_rewrite (s : PatternSet) (tokens : List Token) (name : String) :
    composites name (s.rewrite tokens) =
      composites name tokens + Trace.count (s.attempts tokens) name := by
  rw [rewrite, s.composites_gather 0 0, s.composites_rewriteEach 0, attempts, Trace.count_append,
    Nat.add_assoc]

/-- A trace is an exact record of what `apply` does. The tokens are the same, and the attempts are
those of a pass over each list of tokens, from left to right and with those inside the blocks first.
Each of them is the record of a match of a rule, that is a near miss if it failed behind the first
selector. The table has the number of composites of each name, if there were none before. -/
theorem applyTraced_exact (s : PatternSet) (tokens : List Token) :
    let trace := (s.applyTraced tokens).2
    s.applyTraced tokens = (s.apply tokens, s.attempts tokens) ∧
      (∀ a ∈ trace, ∃ r ∈ s.rules, ∃ level, a.Records r level) ∧
      trace.nearMisses = trace.filter Attempt.failsBehindFirst ∧
      (Plain tokens → ∀ name,
        (trace.counts.lookup name).getD 0 = composites name (s.applyTraced tokens).1) := by
  rw [s.applyTraced_eq]
  refine ⟨rfl, s.tries_attempts tokens, ?_, fun hplain name => ?_⟩
  · refine List.filter_congr fun a ha => ?_
    obtain ⟨r, -, level, hrecords⟩ := s.tries_attempts tokens a ha
    exact hrecords.isNearMiss_eq
  · show (Trace.counts (s.attempts tokens) |>.lookup name).getD 0 = composites name (s.apply tokens)
    rw [Trace.lookup_counts, s.apply_eq, s.composites_rewrite, composites_eq_zero_of_plain hplain,
      Nat.zero_add]

/-- Of three tokens a pattern for two gathers the first two, and it nearly matches at the third. -/
theorem applyTraced_exact_pair :
    let tokens : List Token := [.leaf .ident ⟨0, 1⟩ (.copied ['a']),
      .leaf .symbol ⟨1, 2⟩ (.copied ['-']), .leaf .ident ⟨2, 3⟩ (.copied ['b'])]
    let pair : Pattern := ⟨"pair", 0, [[.any, .any]], false⟩
    ∃ s : PatternSet, s.patterns = [pair] ∧ Plain tokens ∧
      (∀ a ∈ (s.applyTraced tokens).2, ∃ level, a.Records ⟨pair, 0, [.any, .any]⟩ level) ∧
      ((s.applyTraced tokens).2.filter Attempt.failsBehindFirst).map Attempt.position = [2] ∧
      composites "pair" (s.applyTraced tokens).1 = 1 := by
  intro tokens pair
  have hcheck : Pattern.checkAll [] [pair] = .ok () := by decide
  have hpatterns : Pattern.inOrder [pair] = [pair] := List.mergeSort_singleton pair
  let s : PatternSet := ⟨[pair], [pair], hcheck, hpatterns.symm⟩
  have hplain : Plain tokens := by
    intro t ht name hname
    have hleaf : t ∈ tokens := (mem_preorderAll_iff tokens).2 ht
    rcases List.mem_cons.1 hleaf with rfl | hleaf
    · cases hname
    rcases List.mem_cons.1 hleaf with rfl | hleaf
    · cases hname
    cases List.mem_singleton.1 hleaf
    cases hname
  obtain ⟨-, hrecords, hmisses, hcounts⟩ := s.applyTraced_exact tokens
  refine ⟨s, rfl, hplain, ?_, ?_, ?_⟩
  · intro a ha
    obtain ⟨r, hr, level, h⟩ := hrecords a ha
    cases List.mem_singleton.1 hr
    exact ⟨level, h⟩
  · rw [← hmisses]
    rfl
  · rw [← hcounts hplain "pair"]
    rfl

end PatternSet

end TokenTree
