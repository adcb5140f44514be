import TokenTree.Text.Basic

/-!
# White space

The characters with the Unicode property `White_Space`.
-/

namespace TokenTree

namespace Text

/-- The code points that are white space. -/
def blanks : List Nat :=
  [0x20, 0x9, 0xA, 0xB, 0xC, 0xD, 0x85, 0xA0, 0x1680, 0x2000, 0x2001, 0x2002, 0x2003, 0x2004,
    0x2005, 0x2006, 0x2007, 0x2008, 0x2009, 0x200A, 0x2028, 0x2029, 0x202F, 0x205F, 0x3000]

/-- The character is white space. -/
def isBlank (c : Char) : Bool := blanks.contains c.toNat

/-- The text without the white space at its two ends. -/
def trim (t : Text) : Text :=
  ((t.dropWhile isBlank).reverse.dropWhile isBlank).reverse

end Text

end TokenTree
