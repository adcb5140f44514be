import TokenTree.Encoding.Basic

/-!
# UTF-8

The bytes of a character are a lead byte, which tells how many there are, and continuation bytes of
six bits each. The second byte is restricted behind four lead bytes, so that no character has two
forms and neither surrogates nor numbers beyond the last character have any.

Bytes are decoded in rounds. A round checks them up to the first that are no character; these are
replaced by one character, and the next round goes on behind them. Bytes at the end that begin a
character are held, unless nothing follows.
-/

namespace TokenTree

namespace Utf8

/-- The byte is a continuation byte. -/
def isContinuation (b : UInt8) : Bool := 0x80 ≤ b && b ≤ 0xBF

/-- The byte starts a character of two bytes. -/
def leads2 (a : UInt8) : Bool := 0xC2 ≤ a && a ≤ 0xDF

/-- The byte starts a character of three bytes. -/
def leads3 (a : UInt8) : Bool := 0xE0 ≤ a && a ≤ 0xEF

/-- The byte starts a character of four bytes. -/
def leads4 (a : UInt8) : Bool := 0xF0 ≤ a && a ≤ 0xF4

/-- The byte can be the second one of a character of three or four bytes. -/
def isSecond (a b : UInt8) : Bool :=
  isContinuation b && (a != 0xE0 || 0xA0 ≤ b) && (a != 0xED || b ≤ 0x9F)
    && (a != 0xF0 || 0x90 ≤ b) && (a != 0xF4 || b ≤ 0x8F)

/-- The six bits of a continuation byte. -/
def bits (b : UInt8) : Nat := b.toNat % 0x40

/-- What the first bytes of an input are. -/
inductive Reading where
  /-- The first byte and so many behind it are this character. -/
  | char (c : Char) (more : Nat)
  /-- The first byte and so many behind it are no character, whatever follows. -/
  | malformed (more : Nat)
  /-- All the bytes there are begin a character. -/
  | incomplete
  deriving DecidableEq

/-- Reads the next byte of a character, when `more` bytes behind the first are read. Unless the byte
is allowed there, the bytes before it are no character. -/
def expect (allowed : UInt8 → Bool) (more : Nat) (behind : UInt8 → List UInt8 → Reading) :
    List UInt8 → Reading
  | [] => .incomplete
  | b :: rest => if allowed b then behind b rest else .malformed more

/-- Reads the first character of bytes that start with `a`. -/
def first (a : UInt8) (rest : List UInt8) : Reading :=
  if a < 0x80 then .char (.ofNat a.toNat) 0
  else if leads2 a then
    rest |> expect isContinuation 0 fun b _ => .char (.ofNat (a.toNat % 0x20 * 0x40 + bits b)) 1
  else if leads3 a then
    rest |> expect (isSecond a) 0 fun b => expect isContinuation 1 fun c _ =>
      .char (.ofNat ((a.toNat % 0x10 * 0x40 + bits b) * 0x40 + bits c)) 2
  else if leads4 a then
    rest |> expect (isSecond a) 0 fun b => expect isContinuation 1 fun c =>
      expect isContinuation 2 fun d _ =>
        .char (.ofNat (((a.toNat % 0x08 * 0x40 + bits b) * 0x40 + bits c) * 0x40 + bits d)) 3
  else .malformed 0

/-- What bytes are up to the first that are no character. -/
inductive Check where
  /-- All of them are this text. -/
  | whole (text : Text)
  /-- They are this text and then no character, up to `rest`. -/
  | malformed (text : Text) (rest : List UInt8)
  /-- They are this text up to `rest`, all of which begins a character. -/
  | incomplete (text : Text) (rest : List UInt8)
  deriving DecidableEq

/-- Checks bytes that follow a text, which is `seen` in reverse. -/
def check (seen : Text) : List UInt8 → Check
  | [] => .whole seen.reverse
  | a :: rest =>
    match first a rest with
    | .char c more => check (c :: seen) (rest.drop more)
    | .malformed more => .malformed seen.reverse (rest.drop more)
    | .incomplete => .incomplete seen.reverse (a :: rest)
termination_by bytes => bytes.length
decreasing_by
  rw [List.length_drop, List.length_cons]
  omega

/-- A round that meets bytes that are no character takes some bytes away. -/
theorem length_lt_of_check {seen text : Text} {bytes rest : List UInt8}
    (h : check seen bytes = .malformed text rest) : rest.length < bytes.length := by
  fun_induction check seen bytes with
  | case1 seen => cases h
  | case2 seen a behind c more hfirst ih =>
    have hlt := ih h
    rw [List.length_drop] at hlt
    rw [List.length_cons]
    omega
  | case3 seen a behind more hfirst =>
    cases h
    rw [List.length_drop, List.length_cons]
    omega
  | case4 seen a behind hfirst => cases h

/-- Decodes bytes that follow a text, which is `out` in reverse, and gives the text with the bytes
that are held; `final` says that nothing follows. -/
def decode (final : Bool) (out : Text) (bytes : List UInt8) : Text × List UInt8 :=
  match _h : check [] bytes with
  | .whole text => ((text.reverseAux out).reverse, [])
  | .malformed text rest => decode final (replacement :: text.reverseAux out) rest
  | .incomplete text rest =>
    if final then ((replacement :: text.reverseAux out).reverse, [])
    else ((text.reverseAux out).reverse, rest)
termination_by bytes.length
decreasing_by exact length_lt_of_check _h

end Utf8

end TokenTree
