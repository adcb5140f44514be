import TokenTree.Text.Blank

/-!
# Encodings

The ways in which an input can be given as bytes, with the labels by which they are known.
-/

namespace TokenTree

/-- A way to write characters as bytes. -/
inductive Encoding where
  | utf8
  /-- UTF-16 with the low byte first. -/
  | utf16le
  /-- UTF-16 with the high byte first. -/
  | utf16be
  /-- ISO 8859-1, in which a byte is the character of the same number. -/
  | latin1
  deriving DecidableEq, Repr

namespace Encoding

/-- The name of the encoding. -/
def name : Encoding → String
  | utf8 => "UTF-8"
  | utf16le => "UTF-16LE"
  | utf16be => "UTF-16BE"
  | latin1 => "ISO-8859-1"

/-- The labels of each encoding. -/
def labels : List (String × Encoding) :=
  [("utf-8", utf8), ("utf8", utf8), ("unicode-1-1-utf-8", utf8),
    ("utf-16le", utf16le), ("utf-16", utf16le), ("utf-16be", utf16be),
    ("latin1", latin1), ("latin-1", latin1), ("iso-8859-1", latin1), ("iso8859-1", latin1),
    ("l1", latin1)]

/-- The encoding with that label. Letters of either case will do, and white space around it. -/
def ofLabel? (label : Text) : Option Encoding :=
  let key := String.ofList (label.trim.map Char.toLower)
  (labels.find? (·.1 == key)).map Prod.snd

end Encoding

/-- The character that stands for bytes that are no character. -/
def replacement : Char := '\ufffd'

end TokenTree
