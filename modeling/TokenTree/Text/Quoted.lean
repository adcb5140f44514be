import TokenTree.Text.Shown
import TokenTree.Text.Basic

/-!
# Quoted text

A text between double quotes, readable on one line: the quote, the backslash and the four common
control characters are written with a backslash, any other character without a shape of its own by
its code point in braces, and all else as it is.
-/

namespace TokenTree

namespace Text

/-- One character of a quoted text. -/
def quoteChar (c : Char) : String :=
  match c with
  | '\x00' => "\\0"
  | '\t' => "\\t"
  | '\n' => "\\n"
  | '\r' => "\\r"
  | '"' => "\\\""
  | '\\' => "\\\\"
  | c =>
    if isShown c then String.singleton c
    else "\\u\x7b" ++ String.ofList (Nat.toDigits 16 c.toNat) ++ "\x7d"

/-- The text between double quotes, on one line. -/
def quoted (t : Text) : String :=
  (t.foldl (fun s c => s ++ quoteChar c) "\"").push '"'

end Text

end TokenTree
