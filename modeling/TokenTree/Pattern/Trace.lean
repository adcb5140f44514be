import TokenTree.Pattern.Fold

/-!
# Traces

A trace records every attempt to match a rule when patterns are applied: what each selector made of
its token, and how the attempt ended.
-/

namespace TokenTree

/-- What one selector made of one token. -/
structure SelectorStep where
  selector : Nat
  /-- The selector in writing. -/
  description : String
  tag : Token.Tag
  span : Span
  /-- The selector accepted the token. -/
  passed : Bool
  deriving DecidableEq, Repr

/-- An attempt to match a rule. -/
structure Attempt where
  pattern : String
  alternative : Nat
  /-- The position of the first token in its list. -/
  position : Nat
  /-- The offset of the first token. -/
  offset : Nat
  /-- The number of blocks around the list. -/
  depth : Nat
  /-- What the selectors made of the tokens. -/
  steps : List SelectorStep
  /-- The number of tokens matched, or where the match failed. -/
  outcome : Except Failure Nat

namespace Attempt

/-- The rule matched. -/
def isMatch (a : Attempt) : Bool :=
  match a.outcome with
  | .ok _ => true
  | .error _ => false

/-- The number of selectors that accepted their token. -/
def passed (a : Attempt) : Nat := a.steps.countP SelectorStep.passed

/-- The rule did not match, but some of its selectors accepted their token. -/
def isNearMiss (a : Attempt) : Bool := !a.isMatch && a.passed != 0

/-- How the attempt ended, in writing. -/
def ending (a : Attempt) : String :=
  match a.outcome with
  | .ok consumed => "matched " ++ toString consumed ++ " tokens"
  | .error ⟨.exhausted, selector⟩ => "input exhausted before selector " ++ toString selector
  | .error ⟨.mismatch, selector⟩ =>
    match a.steps.getLast? with
    | some step =>
      "selector " ++ toString selector ++ " `" ++ step.description ++ "` rejected "
        ++ step.tag.name ++ " at " ++ toString step.span
    | none => "selector " ++ toString selector ++ " rejected"

/-- The attempt in writing. -/
def description (a : Attempt) : String :=
  a.pattern ++ "#" ++ toString a.alternative ++ " at " ++ toString a.offset ++ " (depth "
    ++ toString a.depth ++ "): " ++ a.ending

end Attempt

/-- The attempts, in the order in which they were made. -/
abbrev Trace := List Attempt

namespace Trace

/-- The attempts that matched. -/
def found (trace : Trace) : List Attempt := trace.filter Attempt.isMatch

/-- The attempts that nearly matched. -/
def nearMisses (trace : Trace) : List Attempt := trace.filter Attempt.isNearMiss

/-- The number of matches of the pattern of that name. -/
def count (trace : Trace) (name : String) : Nat := trace.found.countP (·.pattern == name)

/-- The names in ascending order, with one more put in its place unless it is there already. -/
def placeName (name : String) : List String → List String
  | [] => [name]
  | other :: names =>
    if name < other then name :: other :: names
    else if name = other then other :: names
    else other :: placeName name names

/-- The number of matches of each pattern that has any, in ascending order of names. -/
def counts (trace : Trace) : List (String × Nat) :=
  let names := trace.found.foldl (fun names a => placeName a.pattern names) []
  names.map fun name => (name, trace.count name)

end Trace

namespace Rule

/-- Matches the selectors from the one at `index` on, with a record of each step; `consumed` tokens
come before. -/
def traceFrom (skips : Bool) (index consumed : Nat) :
    List Selector → List Token → List SelectorStep × Except Failure Nat
  | [], _ => ([], .ok consumed)
  | selector :: selectors, tokens =>
    match skip skips index tokens with
    | (_, []) => ([], .error ⟨.exhausted, index⟩)
    | (passed, t :: rest) =>
      let holds := selector.holds t
      let step := ⟨index, selector.description, t.tag, t.span, holds⟩
      if holds then
        let (steps, outcome) :=
          traceFrom skips (index + 1) (consumed + passed + 1) selectors rest
        (step :: steps, outcome)
      else
        ([step], .error ⟨.mismatch, index⟩)

/-- The attempt to match the rule at tokens that start with `t`. -/
def attempt (r : Rule) (depth pos : Nat) (t : Token) (ts : List Token) : Attempt :=
  let (steps, outcome) := traceFrom r.pattern.skipsWhitespace 0 0 r.selectors (t :: ts)
  ⟨r.pattern.name, r.alternative, pos, t.span.start, depth, steps, outcome⟩

/-- Tries rules until one matches; puts the attempts in reverse before `trace`. -/
def firstMatchTraced (depth pos : Nat) (t : Token) (ts : List Token) (trace : Trace) :
    List Rule → Option (Rule × Nat) × Trace
  | [] => (none, trace)
  | r :: rules =>
    let a := r.attempt depth pos t ts
    match a.outcome with
    | .ok count => (some (r, count), a :: trace)
    | .error _ => firstMatchTraced depth pos t ts (a :: trace) rules

end Rule

namespace Fold

/-- Collects folds as `collect` does; puts the attempts in reverse before `trace`. -/
def collectTraced (rules : List Rule) (depth : Nat) (seen : List Fold) (pos covered : Nat)
    (trace : Trace) : List Token → List Fold × Trace
  | [] => (seen.reverse, trace)
  | t :: ts =>
    match covered with
    | covered + 1 => collectTraced rules depth seen (pos + 1) covered trace ts
    | 0 =>
      match Rule.firstMatchTraced depth pos t ts trace rules with
      | (some (r, count), trace) =>
        let fold := ⟨pos, count, r.pattern.priority, r.pattern.name⟩
        collectTraced rules depth (record fold seen) (pos + 1) (count - 1) trace ts
      | (none, trace) => collectTraced rules depth seen (pos + 1) 0 trace ts

/-- Gathers every match of the rules in one list of tokens; puts the attempts in reverse before
`trace`. -/
def foldTokensTraced (rules : List Rule) (depth : Nat) (trace : Trace) (tokens : List Token) :
    List Token × Trace :=
  let (folds, trace) := collectTraced rules depth [] 0 0 trace tokens
  (apply folds tokens, trace)

end Fold

mutual

/-- The token with the patterns applied inside it, if it is a block in a list at that depth; puts
the attempts in reverse before `trace`. -/
def Token.foldInsideTraced (rules : List Rule) (depth : Nat) (trace : Trace) :
    Token → Token × Trace
  | .group (.block d) span lexeme children =>
    let (children, trace) := Token.foldInsideAllTraced rules (depth + 1) trace [] children
    let (children, trace) := Fold.foldTokensTraced rules (depth + 1) trace children
    (.group (.block d) span lexeme children, trace)
  | .group kind span lexeme children => (.group kind span lexeme children, trace)
  | .leaf kind span lexeme => (.leaf kind span lexeme, trace)

/-- The reverse of `out`, then the tokens with the patterns applied inside them; puts the attempts
in reverse before `trace`. -/
def Token.foldInsideAllTraced (rules : List Rule) (depth : Nat) (trace : Trace)
    (out : List Token) : List Token → List Token × Trace
  | [] => (out.reverse, trace)
  | t :: ts =>
    let (t, trace) := Token.foldInsideTraced rules depth trace t
    Token.foldInsideAllTraced rules depth trace (t :: out) ts

end

/-- Applies patterns as `apply` does, with every attempt made. -/
def PatternSet.applyTraced (s : PatternSet) (tokens : List Token) : List Token × Trace :=
  let (tokens, trace) := Token.foldInsideAllTraced s.rules 0 [] [] tokens
  let (tokens, trace) := Fold.foldTokensTraced s.rules 0 trace tokens
  (tokens, trace.reverse)

end TokenTree
