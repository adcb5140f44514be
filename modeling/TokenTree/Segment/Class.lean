import TokenTree.Delimiter
import TokenTree.SymbolSet
import TokenTree.Text.Blank

/-!
# Classes of characters

Every character belongs to one class, and the class of the first character of a text decides how far
its first segment goes. In order of priority a character is an atom, a newline, part of a run of
white space or of digits, a configured symbol, or part of a run of other text.
-/

namespace TokenTree

/-- A character that stands alone whatever the configuration. -/
inductive Atom where
  /-- The opening character of a bracket. -/
  | opening (delimiter : Delimiter)
  /-- The closing character of a bracket. -/
  | closing (delimiter : Delimiter)
  | quote (quote : Quote)
  | backslash
  | slash
  | asterisk
  | dot
  deriving DecidableEq, Repr

/-- The character of an atom. -/
def Atom.char : Atom → Char
  | opening d => d.opener
  | closing d => d.closer
  | quote q => q.char
  | backslash => '\\'
  | slash => '/'
  | asterisk => '*'
  | dot => '.'

/-- The atom that a character is. -/
def Atom.ofChar? : Char → Option Atom
  | '{' => some (opening .brace)
  | '}' => some (closing .brace)
  | '[' => some (opening .bracket)
  | ']' => some (closing .bracket)
  | '(' => some (opening .paren)
  | ')' => some (closing .paren)
  | '\'' => some (quote .single)
  | '"' => some (quote .double)
  | '\\' => some backslash
  | '/' => some slash
  | '*' => some asterisk
  | '.' => some dot
  | _ => none

/-- What the characters of a run have in common. -/
inductive Run where
  /-- The decimal digits of ASCII. -/
  | digits
  /-- The characters of no other class. -/
  | text
  /-- White space within a line. -/
  | whitespace
  deriving DecidableEq, Repr

/-- The class of a character, and of the segment that starts with it. -/
inductive CharClass where
  /-- A character that always stands alone. -/
  | atom (atom : Atom)
  /-- A character that goes with its neighbours of the same class. -/
  | run (run : Run)
  /-- A line feed or a carriage return; a carriage return takes a line feed with it. -/
  | newline
  /-- A configured character, which stands alone. -/
  | symbol
  deriving DecidableEq, Repr

namespace CharClass

/-- A number for each class, in groups: brackets, other atoms, runs and newlines, symbols. -/
def code : CharClass → Nat
  | atom (.opening .brace) => 0
  | atom (.closing .brace) => 1
  | atom (.opening .bracket) => 2
  | atom (.closing .bracket) => 3
  | atom (.opening .paren) => 4
  | atom (.closing .paren) => 5
  | atom (.quote .single) => 8
  | atom (.quote .double) => 9
  | atom .backslash => 10
  | atom .slash => 11
  | atom .asterisk => 12
  | atom .dot => 13
  | run .digits => 16
  | run .text => 17
  | run .whitespace => 18
  | newline => 19
  | symbol => 32

/-- The one character that a segment of the class can be, if there is only one. -/
def char? : CharClass → Option Char
  | atom a => some a.char
  | _ => none

/-- More characters of the same class would lengthen a segment of this class. -/
def isRun : CharClass → Bool
  | run _ => true
  | _ => false

/-- The class of the characters that open a block. -/
def isOpening : CharClass → Bool
  | atom (.opening _) => true
  | _ => false

/-- The class of the characters that close a block. -/
def isClosing : CharClass → Bool
  | atom (.closing _) => true
  | _ => false

end CharClass

/-- The class of a character when `symbols` are configured. -/
def SymbolSet.classOf (symbols : SymbolSet) (c : Char) : CharClass :=
  match Atom.ofChar? c with
  | some a => .atom a
  | none =>
    if c = '\n' ∨ c = '\r' then .newline
    else if c.isDigit then .run .digits
    else if Text.isBlank c then .run .whitespace
    else if symbols.contains c then .symbol
    else .run .text

/-! ## Atoms are their characters -/

theorem Atom.ofChar?_char (a : Atom) : ofChar? a.char = some a := by
  cases a with
  | opening d => cases d <;> rfl
  | closing d => cases d <;> rfl
  | quote q => cases q <;> rfl
  | _ => rfl

theorem Atom.char_of_ofChar? {c : Char} {a : Atom} (h : ofChar? c = some a) : a.char = c := by
  unfold ofChar? at h
  split at h <;> cases h <;> rfl

end TokenTree
