import HeaderCompression.Proofs.Checked.HuffmanCoding
import HeaderCompression.Proofs.Checked.IntegerCoding
import HeaderCompression.Wire.StringLiteral

/-!
# Checked coding of string literals

The length of a coded string is counted to decide whether it is sent in coded form, counted again
for the length of the literal, and has to be the length of the payload that follows.
-/

namespace HeaderCompression.Checked.LiteralCoding

open Wire

def isCoded (mode : HuffmanMode) (octets : Octets) : Option Bool :=
  match mode with
  | .auto => do
    let length ← HuffmanCoding.encodedLength octets
    return length < octets.length
  | .always => some true
  | .never => some false

def encode (mode : HuffmanMode) (octets : Octets) : Option Octets := do
  let coded ← isCoded mode octets
  if coded then
    let length ← HuffmanCoding.encodedLength octets
    let first ← IntegerCoding.encode StringLiteral.huffmanFlag StringLiteral.lengthWidth length
    let payload ← HuffmanCoding.encode octets
    return first ++ payload
  else
    let first ← IntegerCoding.encode 0 StringLiteral.lengthWidth octets.length
    return first ++ octets

variable {octets : Octets}

theorem isCoded_eq (mode : HuffmanMode) (hlength : 32 * octets.length < Bits.values 64) :
    isCoded mode octets = some (StringLiteral.isCoded mode octets) := by
  cases mode with
  | auto =>
    rw [isCoded, bind_of_eq_some (HuffmanCoding.encodedLength_eq hlength)]
    rfl
  | always => rfl
  | never => rfl

/-- Writing a string literal fails in no operation. -/
theorem encode_eq (mode : HuffmanMode) (hlength : 32 * octets.length < Bits.values 64) :
    encode mode octets = some (StringLiteral.encode mode octets) := by
  have hbounds := (Huffman.encodedBits_bounds octets).2
  have hcoded : Huffman.encodedLength octets < Bits.values 64 := by
    unfold Huffman.encodedLength
    omega
  unfold encode StringLiteral.encode
  rw [bind_of_eq_some (isCoded_eq mode hlength)]
  cases StringLiteral.isCoded mode octets with
  | true =>
    rw [if_pos rfl, if_pos rfl, bind_of_eq_some (HuffmanCoding.encodedLength_eq hlength),
      bind_of_eq_some (IntegerCoding.encode_eq _ (by decide) (by decide) hcoded),
      bind_of_eq_some (HuffmanCoding.encode_eq octets)]
    rfl
  | false =>
    rw [if_neg Bool.false_ne_true, if_neg Bool.false_ne_true,
      bind_of_eq_some (IntegerCoding.encode_eq _ (by decide) (by decide) (by omega))]
    rfl

end HeaderCompression.Checked.LiteralCoding
