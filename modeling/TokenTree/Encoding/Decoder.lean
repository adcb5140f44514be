import TokenTree.Encoding.Utf16
import TokenTree.Encoding.Utf8

/-!
# Decoding in chunks

A decoder is given the bytes of an input in chunks. It holds those at the end of a chunk that may
belong to a character whose end is yet to come, and decodes them with the next chunk. Bytes that are
no character are decoded to the replacement character.
-/

namespace TokenTree

/-- A decoder between two chunks. -/
structure Decoder where
  encoding : Encoding
  /-- The bytes that wait for the next chunk. -/
  held : List UInt8
  deriving DecidableEq

namespace Decoder

/-- A decoder at the start of an input. -/
def ofEncoding (encoding : Encoding) : Decoder := ⟨encoding, []⟩

/-- The number of bytes held back. -/
def carried (d : Decoder) : Nat := d.held.length

/-- Decodes bytes and gives the text with the bytes that are held; `final` says that nothing
follows. -/
def decodeBytes (encoding : Encoding) (final : Bool) (bytes : List UInt8) : Text × List UInt8 :=
  match encoding with
  | .utf8 => Utf8.decode final [] bytes
  | .utf16le => Utf16.decode true final bytes
  | .utf16be => Utf16.decode false final bytes
  | .latin1 => (bytes.map fun b => .ofNat b.toNat, [])

/-- Decodes the next chunk; `final` marks the last one. -/
def decode (d : Decoder) (bytes : List UInt8) (final : Bool) : Text × Decoder :=
  let (text, held) := decodeBytes d.encoding final (d.held ++ bytes)
  (text, ⟨d.encoding, held⟩)

end Decoder

end TokenTree
