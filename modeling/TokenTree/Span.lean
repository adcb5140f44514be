/-!
# Spans

Where a token stands in the whole input: the bytes from `start` up to `stop`. Offsets count from the
start of the input however it was delivered, so a token has the same span in every delivery.
-/

namespace TokenTree

/-- The greatest offset that a position in an input may have. -/
def maxOffset : Nat := 0xFFFFFFFF

/-- The bytes of the input from `start` up to `stop`. -/
structure Span where
  /-- The offset of the first byte. -/
  start : Nat
  /-- The offset after the last byte. -/
  stop : Nat
  deriving DecidableEq, Repr

namespace Span

/-- The empty span at the start of the input. -/
def zero : Span := ⟨0, 0⟩

/-- The number of bytes, unless the span ends before it starts. -/
def length? (s : Span) : Option Nat := if s.start ≤ s.stop then some (s.stop - s.start) else none

/-- The span ends where it starts. -/
def isEmpty (s : Span) : Bool := s.start == s.stop

/-- The least span that covers both. -/
def merge (a b : Span) : Span := ⟨min a.start b.start, max a.stop b.stop⟩

/-- The order by start, then by end. -/
def compare (a b : Span) : Ordering :=
  (Ord.compare a.start b.start).then (Ord.compare a.stop b.stop)

instance : Ord Span := ⟨compare⟩

instance : ToString Span := ⟨fun s => toString s.start ++ ".." ++ toString s.stop⟩

/-- What keeps two offsets from making a span. -/
inductive RangeError where
  /-- The start is beyond the greatest offset. -/
  | startTooLarge (offset : Nat)
  /-- The end is beyond the greatest offset. -/
  | endTooLarge (offset : Nat)
  deriving DecidableEq, Repr

/-- A number in upper-case hexadecimal digits. -/
def hex (n : Nat) : String := String.ofList ((Nat.toDigits 16 n).map Char.toUpper)

/-- The wording of the error. -/
def RangeError.message (e : RangeError) : String :=
  let tooLarge (name : String) (n : Nat) :=
    "span " ++ name ++ " " ++ toString n ++ " (0x" ++ hex n ++ ") exceeds u32::MAX (0x"
      ++ hex maxOffset ++ ")"
  match e with
  | .startTooLarge n => tooLarge "start" n
  | .endTooLarge n => tooLarge "end" n

/-- The span from one offset to another, when both are offsets of an input. -/
def ofRange (start stop : Nat) : Except RangeError Span :=
  if maxOffset < start then .error (.startTooLarge start)
  else if maxOffset < stop then .error (.endTooLarge stop)
  else .ok ⟨start, stop⟩

end Span

end TokenTree
