import HeaderCompression.Proofs.Checked.HuffmanCoding
import HeaderCompression.Proofs.Checked.HuffmanDecoding

/-!
# What decoding accepts

The codewords leave no choice of padding, so decoding accepts nothing but what coding writes. The
same holds of coding in a word of 64 bits and of decoding an octet at a time along the trie of the
codebook.
-/

namespace HeaderCompression.Huffman

/-- There is one padding that fills up whole octets. -/
theorem isPadding_unique {first second : Bits} (hfirst : isPadding first = true)
    (hsecond : isPadding second = true) (hlength : first.length % 8 = second.length % 8) :
    first = second := by
  obtain ⟨hshort, hones⟩ := isPadding_iff.1 hfirst
  obtain ⟨hotherShort, hotherOnes⟩ := isPadding_iff.1 hsecond
  have heq : first.length = second.length := by omega
  calc
    first = List.replicate first.length true := hones
    _ = List.replicate second.length true := by rw [heq]
    _ = second := hotherOnes.symm

theorem eq_encode_of_decode {coded octets : Octets} (hdecode : decode coded = .ok octets) :
    coded = encode octets := by
  obtain ⟨padding, hpadding, hcoded⟩ := decode_eq_ok_iff.1 hdecode
  obtain ⟨filling, hfilling, hencode⟩ := exists_padding_of_encode octets
  have hcodedLength := congrArg List.length hcoded
  have hencodeLength := congrArg List.length hencode
  rw [Octets.bits_length, List.length_append] at hcodedLength hencodeLength
  have hsame : padding = filling := isPadding_unique hpadding hfilling (by omega)
  apply Octets.bits_injective
  rw [hcoded, hencode, hsame]

/-- Coding is a bijection onto what decoding accepts: every string has one coded form, and nothing
else stands for it. -/
theorem decode_eq_ok_iff_eq_encode {coded octets : Octets} :
    decode coded = .ok octets ↔ coded = encode octets := by
  constructor
  · exact eq_encode_of_decode
  · rintro rfl
    exact decode_encode octets

end HeaderCompression.Huffman

namespace HeaderCompression.Checked.HuffmanDecoding

open HeaderCompression.Huffman CodeTrie

variable {coded octets : Octets}

/-- Decoding along the trie accepts what coding in words writes, and nothing else. -/
theorem decodeFrom_root_eq_ok_iff {trie : Trie} (hroot : Represents trie root codeTree) :
    decodeFrom trie coded { } = some (.ok octets) ↔ HuffmanCoding.encode octets = some coded := by
  rw [decodeFrom_root_eq hroot, HuffmanCoding.encode_eq, Option.some_inj, Option.some_inj]
  constructor
  · intro hdecode
    exact (eq_encode_of_decode hdecode).symm
  · rintro rfl
    exact decode_encode octets

/-- So does decoding with the trie built anew, as long as the bits of the coded string can be
counted to set the size of the result aside. -/
theorem decode_eq_some_ok_iff :
    decode coded = some (.ok octets) ↔
      coded.length * 8 ≤ Size.largest ∧ HuffmanCoding.encode octets = some coded := by
  obtain ⟨trie, -, hroot⟩ := exists_build
  rw [decode_eq_some_iff, ← decodeFrom_root_eq_ok_iff hroot, decodeFrom_root_eq hroot,
    Option.some_inj]

end HeaderCompression.Checked.HuffmanDecoding
