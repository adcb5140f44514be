import TokenTree.Pattern.Selector

/-!
# Pattern sets

A pattern is a name for runs of tokens: each of its alternatives is a sequence of selectors, one for
each token of the run, or for each token that is not white space. A `PatternSet` holds accepted
patterns in the order in which they are tried: those of higher priority first, then those with the
longer alternative, then those defined earlier.
-/

namespace TokenTree

/-- A named set of sequences of selectors. -/
structure Pattern where
  /-- The name of the runs that match. -/
  name : String
  /-- Patterns of higher priority are tried first. -/
  priority : Int
  /-- The sequences, in the order in which they are tried. -/
  alternatives : List (List Selector)
  /-- White space may stand between the tokens that are selected. -/
  skipsWhitespace : Bool

/-- Why patterns are not accepted. -/
inductive PatternError where
  /-- A pattern has no name. -/
  | emptyName
  /-- The pattern has no alternative. -/
  | noAlternatives (name : String)
  /-- The pattern's alternative at that index has no selector. -/
  | emptyAlternative (name : String) (index : Nat)
  /-- Two patterns have that name. -/
  | duplicateName (name : String)
  deriving DecidableEq, Repr

/-- The wording of the error. -/
def PatternError.message : PatternError → String
  | emptyName => "pattern name is empty"
  | noAlternatives name => "pattern `" ++ name ++ "` has no alternatives"
  | emptyAlternative name index =>
    "alternative #" ++ toString index ++ " of pattern `" ++ name ++ "` has no selectors"
  | duplicateName name => "pattern `" ++ name ++ "` is defined more than once"

namespace Pattern

/-- The number of selectors of the longest alternative. -/
def longest (p : Pattern) : Nat := p.alternatives.foldl (fun n a => max n a.length) 0

/-- Finds the first fault of a pattern by itself. -/
def check (p : Pattern) : Except PatternError Unit :=
  if p.name.isEmpty then .error .emptyName
  else if p.alternatives.isEmpty then .error (.noAlternatives p.name)
  else
    match p.alternatives.findIdx? (·.isEmpty) with
    | some index => .error (.emptyAlternative p.name index)
    | none => .ok ()

/-- Finds the first fault of patterns that are defined after the earlier ones. -/
def checkAll (earlier : List Pattern) : List Pattern → Except PatternError Unit
  | [] => .ok ()
  | p :: ps =>
    match p.check with
    | .error e => .error e
    | .ok () =>
      if earlier.any (·.name == p.name) then .error (.duplicateName p.name)
      else checkAll (p :: earlier) ps

/-- The first pattern need not be tried after the second one, if it was defined earlier. -/
def triedBefore (a b : Pattern) : Bool :=
  b.priority < a.priority || (a.priority == b.priority && b.longest ≤ a.longest)

/-- The patterns in the order in which they are tried. -/
def inOrder (definitions : List Pattern) : List Pattern := definitions.mergeSort triedBefore

end Pattern

/-- Accepted patterns in the order in which they are tried. -/
structure PatternSet where
  patterns : List Pattern
  /-- They are accepted definitions, in order. -/
  accepted : ∃ definitions, Pattern.checkAll [] definitions = .ok () ∧
    patterns = Pattern.inOrder definitions

/-- One alternative of a pattern. -/
structure Rule where
  pattern : Pattern
  alternative : Nat
  selectors : List Selector

namespace PatternSet

/-- The set of the patterns defined, or their first fault. -/
def ofList (definitions : List Pattern) : Except PatternError PatternSet :=
  match h : Pattern.checkAll [] definitions with
  | .ok () => .ok ⟨Pattern.inOrder definitions, definitions, h, rfl⟩
  | .error e => .error e

/-- The pattern of that name. -/
def find? (s : PatternSet) (name : String) : Option Pattern :=
  s.patterns.find? (·.name == name)

/-- The names, in the order in which the patterns are tried. -/
def names (s : PatternSet) : List String := s.patterns.map Pattern.name

/-- The number of patterns. -/
def size (s : PatternSet) : Nat := s.patterns.length

/-- Every alternative of every pattern, in the order in which they are tried. -/
def rules (s : PatternSet) : List Rule :=
  s.patterns.flatMap fun p => p.alternatives.mapIdx fun i selectors => ⟨p, i, selectors⟩

end PatternSet

end TokenTree
