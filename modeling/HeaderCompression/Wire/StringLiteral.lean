import HeaderCompression.Huffman.Coding
import HeaderCompression.Size
import HeaderCompression.Wire.PrefixedInteger

/-!
# String literals

A string literal is a length, a flag that says whether the string is coded, and the payload of that
length. The length is an integer in the low seven bits of an octet whose high bit is the flag.
-/

namespace HeaderCompression.Wire

open Octets

/-- When string literals are coded. -/
inductive HuffmanMode where
  /-- Coded exactly if that is shorter. -/
  | auto
  | always
  | never
  deriving DecidableEq, Repr, Inhabited

namespace StringLiteral

/-- The high bit of the first octet, which marks a coded payload. -/
def huffmanFlag : UInt8 := 0x80

/-- The width of the length in the first octet. -/
def lengthWidth : Nat := 7

/-! ## Writing -/

/-- Whether a string is sent in coded form. -/
def isCoded : HuffmanMode → Octets → Bool
  | .auto, octets => Huffman.encodedLength octets < octets.length
  | .always, _ => true
  | .never, _ => false

def encode (mode : HuffmanMode) (octets : Octets) : Octets :=
  if isCoded mode octets then
    PrefixedInteger.encode huffmanFlag lengthWidth (Huffman.encodedLength octets) ++
      Huffman.encode octets
  else PrefixedInteger.encode 0 lengthWidth octets.length ++ octets

/-! ## Reading -/

/-- Read a payload of `length` octets, all of it or nothing. -/
def readPayload (huffman : Bool) (length : Nat) (octets : Octets) : Reading Octets :=
  if octets.length < length then .incomplete
  else if huffman then
    match Huffman.decode (octets.take length) with
    | .ok decoded => .complete decoded (octets.drop length)
    | .error error => .failed error (octets.drop length)
  else .complete (octets.take length) (octets.drop length)

theorem readPayload_of_length_lt {huffman : Bool} {length : Nat} {octets : Octets}
    (hlength : octets.length < length) : readPayload huffman length octets = .incomplete := by
  simp [readPayload, hlength]

/-- A payload that is not coded is taken as it stands. -/
theorem readPayload_append (payload rest : Octets) :
    readPayload false payload.length (payload ++ rest) = .complete payload rest := by
  simp [readPayload]

/-- The fewest octets that a payload of `length` octets can stand for. No codeword is longer than
30 bits, and the product sticks at the largest size. -/
def minimumDecodedLength (huffman : Bool) (length : Nat) : Nat :=
  if huffman then Size.saturatingMul length 8 / 30 else length

end StringLiteral

end HeaderCompression.Wire
