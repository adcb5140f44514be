import TokenTree.Encoding.Basic

/-!
# UTF-16

A character is one unit of two bytes, or a pair of surrogates: a high one, then a low one. A
surrogate that is not in a pair stands for no character, and neither does half a unit. At the end of
bytes that others follow, half a unit is held, and so is a high surrogate, whose pair may follow.
-/

namespace TokenTree

namespace Utf16

/-- The number of a unit, whose bytes come low byte first or high byte first. -/
def unit (lowFirst : Bool) (a b : UInt8) : Nat :=
  if lowFirst then b.toNat * 0x100 + a.toNat else a.toNat * 0x100 + b.toNat

/-- The unit starts a pair. -/
def isHigh (u : Nat) : Bool := 0xD800 ≤ u && u ≤ 0xDBFF

/-- The unit ends a pair. -/
def isLow (u : Nat) : Bool := 0xDC00 ≤ u && u ≤ 0xDFFF

/-- The character of a pair. -/
def pair (high low : Nat) : Char :=
  .ofNat (0x10000 + (high - 0xD800) * 0x400 + (low - 0xDC00))

/-- Puts the units of bytes in reverse before `seen`, leaving out half a unit at the end. -/
def unitsOnto (lowFirst : Bool) (seen : List Nat) : List UInt8 → List Nat
  | a :: b :: bytes => unitsOnto lowFirst (unit lowFirst a b :: seen) bytes
  | _ => seen

/-- The units of bytes, without half a unit at the end. -/
def units (lowFirst : Bool) (bytes : List UInt8) : List Nat :=
  (unitsOnto lowFirst [] bytes).reverse

/-- The character of a unit that is not in a pair. A surrogate is replaced. -/
def lone (u : Nat) : Char := if isHigh u || isLow u then replacement else .ofNat u

/-- Puts the characters of units in reverse before `out`. -/
def charsOnto (out : Text) : List Nat → Text
  | [] => out
  | [u] => lone u :: out
  | u :: v :: us =>
    if isHigh u && isLow v then charsOnto (pair u v :: out) us
    else charsOnto (lone u :: out) (v :: us)

/-- The units end with one that starts a pair. -/
def endsHigh (units : List Nat) : Bool := units.getLast?.any isHigh

/-- Decodes bytes and gives the text with the bytes that are held; `final` says that nothing
follows. -/
def decode (lowFirst final : Bool) (bytes : List UInt8) : Text × List UInt8 :=
  let units := units lowFirst bytes
  let half := bytes.length % 2
  if final then
    let out := charsOnto [] units
    ((if half = 1 then replacement :: out else out).reverse, [])
  else
    let high := endsHigh units
    let held := if high then half + 2 else half
    ((charsOnto [] (if high then units.dropLast else units)).reverse,
      bytes.drop (bytes.length - held))

end Utf16

end TokenTree
