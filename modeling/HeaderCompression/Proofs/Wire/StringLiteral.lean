import HeaderCompression.Proofs.Huffman.Coding
import HeaderCompression.Proofs.Wire.PrefixedInteger
import HeaderCompression.Wire.StringLiteral

/-!
# Reading back string literals

The reader of whole string literals takes the flag from the first octet and the length from the
integer that begins there, and then the payload. It reads back what is written in every mode, and
no payload stands for fewer octets than its length alone promises.
-/

namespace HeaderCompression.Wire

open Octets

/-! ## First octets of integers -/

namespace PrefixedInteger

theorem exists_encode_eq_cons (mask : UInt8) (width value : Nat) :
    ∃ low tail, low < Bits.values width ∧
      encode mask width value = (mask ||| UInt8.ofNat low) :: tail := by
  have hones := Bits.ones_lt_values width
  by_cases hsmall : value < Bits.ones width
  · exact ⟨value, [], Nat.lt_trans hsmall hones, by rw [encode, if_pos hsmall]⟩
  · exact ⟨Bits.ones width, _, hones, by rw [encode, if_neg hsmall]⟩

/-- The bits above the low bits are those of the mask. -/
theorem testBit_or_ofNat {mask : UInt8} {width low place : Nat} (hwidth : width ≤ 8)
    (hlow : low < Bits.values width) (hplace : width ≤ place) :
    (mask ||| UInt8.ofNat low).toNat.testBit place = mask.toNat.testBit place := by
  have hvalues : Bits.values width ≤ 256 := Bits.values_mono hwidth
  have hsmall : low < Nat.pow 2 place := Nat.lt_of_lt_of_le hlow (Bits.values_mono hplace)
  have hbit : low.testBit place = false := Nat.testBit_lt_two_pow hsmall
  rw [UInt8.toNat_or, toNat_ofNat_of_lt (by omega), Nat.testBit_or, hbit, Bool.or_false]

end PrefixedInteger

namespace StringLiteral

/-! ## Payloads -/

/-- What a payload stands for. -/
def textOf (huffman : Bool) (payload : Octets) : Except DecodingError Octets :=
  if huffman then Huffman.decode payload else .ok payload

theorem readPayload_of_length_le {huffman : Bool} {length : Nat} {octets : Octets}
    (hlength : length ≤ octets.length) :
    readPayload huffman length octets =
      .ofExcept (textOf huffman (octets.take length)) (octets.drop length) := by
  have hnot : ¬octets.length < length := by omega
  cases huffman with
  | false => simp [readPayload, textOf, hnot]
  | true =>
    simp only [readPayload, textOf, hnot, if_false, if_true]
    cases Huffman.decode (octets.take length) <;> rfl

theorem prefixwise_readPayload (huffman : Bool) (length : Nat) :
    Prefixwise (readPayload huffman length) where
  decided {octets rest} verdict hread := by
    by_cases hshort : octets.length < length
    · rw [readPayload_of_length_lt hshort] at hread
      exact absurd hread.symm (Reading.ofExcept_ne_incomplete verdict rest)
    · have hlength : (octets.take length).length = length := by
        rw [List.length_take]
        omega
      rw [readPayload_of_length_le (by omega)] at hread
      obtain ⟨hverdict, rfl⟩ := Reading.ofExcept_inj _ verdict hread
      refine ⟨octets.take length, (List.take_append_drop length octets).symm, fun more ↦ ?_⟩
      rw [readPayload_of_length_le (by rw [List.length_append]; omega), List.take_left' hlength,
        List.drop_left' hlength, hverdict]

theorem readPayload_nil {huffman : Bool} {length : Nat} (hlength : 0 < length) :
    readPayload huffman length [] = .incomplete :=
  readPayload_of_length_lt hlength

/-- A payload takes the octets that its length says. -/
theorem eq_drop_of_readPayload {huffman : Bool} {length : Nat} {octets text rest : Octets}
    (hread : readPayload huffman length octets = .complete text rest) :
    length ≤ octets.length ∧ rest = octets.drop length := by
  by_cases hshort : octets.length < length
  · rw [readPayload_of_length_lt hshort] at hread
    cases hread
  · have hlength := Nat.le_of_not_lt hshort
    rw [readPayload_of_length_le hlength] at hread
    obtain ⟨-, hrest⟩ := Reading.ofExcept_inj _ (.ok text) hread
    exact ⟨hlength, hrest.symm⟩

/-- The product may stick at the largest size, which makes the bound no larger. -/
theorem minimumDecodedLength_true_le (length : Nat) :
    minimumDecodedLength true length ≤ length * 8 / 30 :=
  Nat.div_le_div_right (Nat.min_le_left _ _)

theorem minimumDecodedLength_true_eq {length : Nat} (hlength : length * 8 ≤ Size.largest) :
    minimumDecodedLength true length = length * 8 / 30 :=
  congrArg (· / 30) (Nat.min_eq_left hlength)

/-- The quotient counts padding as if it belonged to a codeword, but seven bits are too few to make
up thirty. -/
theorem minimumDecodedLength_le_of_textOf {huffman : Bool} {payload text : Octets}
    (htext : textOf huffman payload = .ok text) :
    minimumDecodedLength huffman payload.length ≤ text.length := by
  cases huffman with
  | false =>
    obtain rfl : payload = text := Except.ok.inj htext
    exact Nat.le_refl payload.length
  | true =>
    have hbound := (Huffman.length_bounds_of_decode htext).2
    calc
      minimumDecodedLength true payload.length ≤ payload.length * 8 / 30 :=
        minimumDecodedLength_true_le payload.length
      _ ≤ text.length := by omega

theorem minimumDecodedLength_le {huffman : Bool} {length : Nat} {octets text rest : Octets}
    (hread : readPayload huffman length octets = .complete text rest) :
    minimumDecodedLength huffman length ≤ text.length := by
  obtain ⟨hlength, rfl⟩ := eq_drop_of_readPayload hread
  rw [readPayload_of_length_le hlength] at hread
  obtain ⟨htext, -⟩ := Reading.ofExcept_inj _ (.ok text) hread
  have hleast := minimumDecodedLength_le_of_textOf htext
  rwa [List.length_take, Nat.min_eq_left hlength] at hleast

/-! ## Whole literals -/

/-- The flag and the length that a literal begins with. -/
def readLength : Octets → Reading (Bool × Nat)
  | [] => .incomplete
  | octet :: rest =>
    (PrefixedInteger.read 7 (octet :: rest)).map fun length ↦ (octet.toNat.testBit 7, length)

/-- A whole string literal. -/
def read (octets : Octets) : Reading Octets :=
  (readLength octets).andThen fun flagged rest ↦ readPayload flagged.1 flagged.2 rest

theorem prefixwise_readLength : Prefixwise readLength :=
  .ofFirst (fun _ ↦ (PrefixedInteger.prefixwise_read 7).map _) (fun _ ↦ rfl) rfl fun _ _ ↦ rfl

theorem prefixwise_read : Prefixwise read :=
  prefixwise_readLength.andThen fun flagged ↦ prefixwise_readPayload flagged.1 flagged.2

/-- The length of the payload that a string is sent as. -/
def payloadLength (mode : HuffmanMode) (text : Octets) : Nat :=
  if isCoded mode text then Huffman.encodedLength text else text.length

theorem readLength_encode {mask : UInt8} (hmask : mask.toNat % 128 = 0) {length : Nat}
    (hlength : length < 127 + PrefixedInteger.continuationValues) (rest : Octets) :
    readLength (PrefixedInteger.encode mask 7 length ++ rest) =
      .complete (mask.toNat.testBit 7, length) rest := by
  obtain ⟨low, tail, hlow, hencode⟩ := PrefixedInteger.exists_encode_eq_cons mask 7 length
  have hread : PrefixedInteger.read 7 (PrefixedInteger.encode mask 7 length ++ rest) =
      .complete length rest := PrefixedInteger.read_encode (by decide) hmask hlength rest
  have hflag : (mask ||| UInt8.ofNat low).toNat.testBit 7 = mask.toNat.testBit 7 :=
    PrefixedInteger.testBit_or_ofNat (by decide) hlow (by decide)
  rw [hencode, List.cons_append] at hread ⊢
  rw [readLength, hread, hflag, Reading.map_complete]

theorem read_encode {mode : HuffmanMode} {text : Octets}
    (hlength : payloadLength mode text < 127 + PrefixedInteger.continuationValues)
    (rest : Octets) : read (encode mode text ++ rest) = .complete text rest := by
  unfold payloadLength at hlength
  unfold encode read
  cases hcoded : isCoded mode text with
  | true =>
    have hpayload : readPayload true (Huffman.encodedLength text) (Huffman.encode text ++ rest) =
        .complete text rest := by
      have hencoded := Huffman.length_encode text
      rw [readPayload_of_length_le (by rw [List.length_append]; omega), List.take_left' hencoded,
        List.drop_left' hencoded, textOf, if_pos rfl, Huffman.decode_encode, Reading.ofExcept_ok]
    rw [hcoded, if_pos rfl] at hlength
    rw [if_pos rfl, List.append_assoc, lengthWidth, readLength_encode (by decide) hlength,
      Reading.andThen_complete]
    exact hpayload
  | false =>
    rw [hcoded, if_neg Bool.false_ne_true] at hlength
    rw [if_neg Bool.false_ne_true, List.append_assoc, lengthWidth,
      readLength_encode (by decide) hlength, Reading.andThen_complete]
    exact readPayload_append text rest

/-- Thirty bits an octet are at most four octets. -/
theorem payloadLength_le (mode : HuffmanMode) (text : Octets) :
    payloadLength mode text ≤ 4 * text.length := by
  have hbounds := Huffman.encodedBits_bounds text
  unfold payloadLength Huffman.encodedLength
  split <;> omega

end StringLiteral

end HeaderCompression.Wire
