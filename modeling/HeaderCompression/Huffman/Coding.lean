import HeaderCompression.DecodingError
import HeaderCompression.Huffman.CodeTree

/-!
# Coding of octet strings

Coding writes the codewords of the octets one after the other and fills the last octet up with
ones. Between two codewords the writer holds back the bits that do not fill an octet, fewer than
eight of them. Decoding follows the code tree bit by bit and starts again at the root after each
symbol. What remains after the last symbol has to be fewer than eight bits, all of them ones.
-/

namespace HeaderCompression.Huffman

/-! ## Coding -/

/-- How many bits the codewords of a string have. -/
def encodedBits : Octets → Nat
  | [] => 0
  | octet :: rest => (codeword (.octet octet)).length + encodedBits rest

/-- How many octets a string occupies when it is coded. -/
def encodedLength (octets : Octets) : Nat :=
  (encodedBits octets + 7) / 8

/-- The first `count` octets of the `width` low bits of `value`. -/
def leadingOctets (value : Nat) : (width count : Nat) → Octets
  | _, 0 => []
  | width, count + 1 =>
    UInt8.ofNat (value / Bits.values (width - 8)) :: leadingOctets value (width - 8) count

/-- Fill up the `width` bits of `pending`, fewer than eight, with ones. -/
def finish (pending width : Nat) : Octets :=
  if width = 0 then []
  else [UInt8.ofNat (pending * Bits.values (8 - width) + Bits.ones (8 - width))]

/-- Code octets when `width` bits, those of `pending`, wait to be written. -/
def encodeFrom (pending width : Nat) : Octets → Octets
  | [] => finish pending width
  | octet :: rest =>
    let word := codeword (.octet octet)
    let value := pending * Bits.values word.length + word.value
    let total := width + word.length
    leadingOctets value total (total / 8) ++
      encodeFrom (value % Bits.values (total % 8)) (total % 8) rest

/-- The coded form of an octet string. -/
def encode (octets : Octets) : Octets :=
  encodeFrom 0 0 octets

/-! ## Decoding -/

/-- Whether the bits after the last symbol may stand there. -/
def isPadding (bits : Bits) : Bool :=
  bits.length < 8 && bits.all id

/-- Decode bits from a node of the code tree on, `pending` being the bits that led to the node. -/
def decodeFrom : (node : CodeTree) → (pending : Bits) → Bits → Except DecodingError Octets
  | _, pending, [] => if isPadding pending then .ok [] else .error .invalidPadding
  | node, pending, bit :: rest =>
    match node.child bit with
    | .leaf (.octet octet) => (decodeFrom codeTree [] rest).map (octet :: ·)
    | .leaf .endOfString => .error .endOfStringDecoded
    | .branch zero one => decodeFrom (.branch zero one) (bit :: pending) rest
    | .unassigned => .error .unassignedCodeword

/-- The octet string that a coded string stands for. -/
def decode (octets : Octets) : Except DecodingError Octets :=
  decodeFrom codeTree [] (Octets.bits octets)

end HeaderCompression.Huffman
