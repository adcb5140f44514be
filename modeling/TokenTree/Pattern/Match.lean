import TokenTree.Pattern.Set

/-!
# Matching a sequence

A rule matches at the start of a list of tokens when its selectors accept them one after the other.
A rule that skips white space passes over it before each selector but the first.
-/

namespace TokenTree

/-- Why a rule does not match. -/
inductive FailureReason where
  /-- The selector does not accept the token it comes to. -/
  | mismatch
  /-- There is no token left for the selector. -/
  | exhausted
  deriving DecidableEq, Repr

/-- Where a rule does not match. -/
structure Failure where
  /-- Why it does not match. -/
  reason : FailureReason
  /-- The index of the selector that fails. -/
  selector : Nat
  deriving DecidableEq, Repr

namespace Rule

/-- The number of tokens passed over before the selector at the index, with the tokens after
them. -/
def skip (skips : Bool) (index : Nat) (tokens : List Token) : Nat × List Token :=
  if skips && index != 0 then
    ((tokens.takeWhile Token.isWhitespace).length, tokens.dropWhile Token.isWhitespace)
  else
    (0, tokens)

/-- Matches the selectors from the one at `index` on; `consumed` tokens come before. -/
def matchFrom (skips : Bool) (index consumed : Nat) :
    List Selector → List Token → Except Failure Nat
  | [], _ => .ok consumed
  | selector :: selectors, tokens =>
    match skip skips index tokens with
    | (_, []) => .error ⟨.exhausted, index⟩
    | (passed, t :: rest) =>
      if selector.holds t then
        matchFrom skips (index + 1) (consumed + passed + 1) selectors rest
      else
        .error ⟨.mismatch, index⟩

/-- The number of tokens that the rule matches at the start of the list. -/
def matchTokens (r : Rule) (tokens : List Token) : Except Failure Nat :=
  matchFrom r.pattern.skipsWhitespace 0 0 r.selectors tokens

/-- The first of the rules that matches at the start of the list, with the number of tokens. -/
def firstMatch (rules : List Rule) (tokens : List Token) : Option (Rule × Nat) :=
  rules.findSome? fun r => (r.matchTokens tokens).toOption.map (r, ·)

end Rule

end TokenTree
