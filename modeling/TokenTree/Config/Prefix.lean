import TokenTree.Text.Basic

/-!
# The longest prefix

Which of several items does a text start with? Of those that match, the first of the longest counts.
While more text may follow there is no answer yet if some item only starts with the text: whether it
matches is for the text to come to decide, and it would be longer than any match there is now.
-/

namespace TokenTree

/-- What a text says about the items it may start with. -/
inductive PrefixMatch (α : Type) where
  /-- The text starts with this item, which stands at the given index. -/
  | found (index : Nat) (item : α)
  /-- All of the text is the beginning of some item. -/
  | undecided
  /-- The text starts with no item. -/
  | absent
  deriving DecidableEq

namespace PrefixMatch

variable {α : Type} (key : α → Text)

/-- The text is the beginning of the item, and not all of it. -/
def isBegun (rest : Text) (item : α) : Bool :=
  rest.isPrefixOf (key item) && decide (rest.length < (key item).length)

/-- The text starts with the item, and the item is longer than the best one so far. -/
def isBetter (rest : Text) (best : Option (Nat × α)) (item : α) : Bool :=
  (key item).isPrefixOf rest &&
    best.all fun (_, other) => decide ((key other).length < (key item).length)

/-- The first of the longest items that the text starts with, with its index, given the best of
those before index `i`. -/
def longestFrom (rest : Text) (best : Option (Nat × α)) (i : Nat) : List α → Option (Nat × α)
  | [] => best
  | item :: items =>
    longestFrom rest (if isBetter key rest best item then some (i, item) else best) (i + 1) items

/-- The first of the longest items that the text starts with; no answer when more text may follow
(`final` is not set) and that could make a longer item match. -/
def find (items : List α) (rest : Text) (final : Bool) : PrefixMatch α :=
  if !final && items.any (isBegun key rest) then .undecided
  else
    match longestFrom key rest none 0 items with
    | some (i, item) => .found i item
    | none => .absent

end PrefixMatch

end TokenTree
