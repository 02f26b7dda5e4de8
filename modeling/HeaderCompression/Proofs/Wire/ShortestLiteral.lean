import HeaderCompression.Proofs.Checked.LiteralCoding
import HeaderCompression.Proofs.Octets.Arrival
import HeaderCompression.Proofs.Wire.StringLiteral
import Mathlib.Order.MinMax
import Mathlib.Order.Nat

/-!
# The shortest form of a string literal

A literal is longer than its payload by the octets of the length, and a larger length never takes
fewer octets. So the shorter one of two payloads makes the shorter literal, and coding a string
exactly if that shortens its payload makes the shortest. Whichever form is sent, the length and the
flag lead back to the string.
-/

namespace HeaderCompression.Wire

open Octets

/-! ## Lengths of integers -/

namespace PrefixedInteger

theorem length_continuation_mono : Monotone fun value ↦ (continuation value).length := by
  intro first second hle
  dsimp only
  fun_induction continuation second generalizing first with
  | case1 second hlast =>
    rw [continuation, if_pos (Nat.lt_of_le_of_lt hle hlast)]
    exact Nat.le_refl 1
  | case2 second hmore hothers =>
    rw [continuation]
    by_cases hlast : first < 128
    · rw [if_pos hlast]
      exact Nat.succ_le_succ (Nat.zero_le _)
    · rw [if_neg hlast]
      exact Nat.succ_le_succ (hothers (Nat.div_le_div_right hle))

/-- The mask has no part in the length. -/
theorem length_encode (mask : UInt8) (width value : Nat) :
    (encode mask width value).length =
      if value < Bits.ones width then 1
      else 1 + (continuation (value - Bits.ones width)).length := by
  rw [encode]
  split
  · rfl
  · rw [List.length_cons, Nat.add_comm]

theorem length_encode_mono (mask : UInt8) (width : Nat) :
    Monotone fun value ↦ (encode mask width value).length := by
  intro first second hle
  dsimp only
  rw [length_encode, length_encode]
  by_cases hsmall : second < Bits.ones width
  · rw [if_pos hsmall, if_pos (Nat.lt_of_le_of_lt hle hsmall)]
  · have hrest := length_continuation_mono (Nat.sub_le_sub_right hle (Bits.ones width))
    dsimp only at hrest
    rw [if_neg hsmall]
    split <;> omega

end PrefixedInteger

namespace StringLiteral

/-! ## Lengths of literals -/

/-- The length of a literal with a payload of `length` octets. -/
def literalLength (length : Nat) : Nat :=
  (PrefixedInteger.encode 0 lengthWidth length).length + length

theorem literalLength_mono : Monotone literalLength :=
  fun _ _ hle ↦ Nat.add_le_add (PrefixedInteger.length_encode_mono 0 lengthWidth hle) hle

theorem length_encode (mode : HuffmanMode) (text : Octets) :
    (encode mode text).length = literalLength (payloadLength mode text) := by
  unfold encode payloadLength literalLength
  cases isCoded mode text with
  | true =>
    rw [if_pos rfl, if_pos rfl, List.length_append, PrefixedInteger.length_encode,
      PrefixedInteger.length_encode, Huffman.length_encode]
  | false =>
    rw [if_neg Bool.false_ne_true, if_neg Bool.false_ne_true, List.length_append]

theorem payloadLength_auto (text : Octets) :
    payloadLength .auto text = min (payloadLength .always text) (payloadLength .never text) := by
  simp only [payloadLength, isCoded]
  by_cases hshorter : Huffman.encodedLength text < text.length
  · simp [hshorter, Nat.min_eq_left (Nat.le_of_lt hshorter)]
  · simp [hshorter, Nat.min_eq_right (Nat.le_of_not_lt hshorter)]

theorem length_encode_auto (text : Octets) :
    (encode .auto text).length = min (encode .always text).length (encode .never text).length := by
  rw [length_encode, length_encode, length_encode, payloadLength_auto]
  exact literalLength_mono.map_min

theorem encode_auto_of_equal_lengths {text : Octets}
    (hequal : payloadLength .always text = payloadLength .never text) :
    encode .auto text = encode .never text := by
  have hlength : Huffman.encodedLength text = text.length := by
    simpa [payloadLength, isCoded] using hequal
  simp [encode, isCoded, hlength]

/-! ## Reading by parts -/

/-- The first octet holds the flag, and the integer that begins there is the length. -/
theorem exists_length_of_read {octets text rest : Octets} (hread : read octets = .complete text rest) :
    ∃ first length middle, octets.head? = some first ∧
      PrefixedInteger.read lengthWidth octets = .complete length middle ∧
        readPayload (first.toNat.testBit 7) length middle = .complete text rest := by
  obtain ⟨⟨flag, length⟩, middle, hlength, hpayload⟩ := Reading.andThen_eq_complete_iff.1 hread
  cases octets with
  | nil => cases hlength
  | cons first octets =>
    obtain ⟨_, hmeasured, hflagged⟩ := Reading.map_eq_complete_iff.1 hlength
    obtain ⟨rfl, rfl⟩ := Prod.mk.inj hflagged
    exact ⟨first, _, middle, rfl, hmeasured, hpayload⟩

/-- A literal can be read in every mode, by its length first and then by its payload, if the payload
is short enough for its length to be read. Choosing the mode automatically gives the shorter one of
the coded and the plain literal, and the plain one if the payloads are equally long. Strings of
fewer than `2 ^ 58` octets are written so with words of 64 bits, of which no operation fails. -/
theorem readable_in_every_mode_and_shortest_in_auto (text : Octets) :
    (∀ (mode : HuffmanMode) (queue : Queue) (rest : Octets),
      payloadLength mode text < 127 + PrefixedInteger.continuationValues →
        queue.unread = encode mode text ++ rest →
          ∃ first length, queue.unread.head? = some first ∧
            let measured := queue.read (PrefixedInteger.read lengthWidth)
            let taken := measured.2.read (readPayload (first.toNat.testBit 7) length)
            measured.1 = .ok (some length) ∧ taken.1 = .ok (some text) ∧ taken.2.unread = rest) ∧
      (encode .auto text).length = min (encode .always text).length (encode .never text).length ∧
        (payloadLength .always text = payloadLength .never text →
          encode .auto text = encode .never text) ∧
        (text.length < Bits.values 58 →
          ∀ mode, Checked.LiteralCoding.encode mode text = some (encode mode text)) := by
  refine ⟨fun mode queue rest hlength hunread ↦ ?_, length_encode_auto text,
    encode_auto_of_equal_lengths, fun hshort mode ↦ ?_⟩
  · have hread := read_encode hlength rest
    rw [← hunread] at hread
    obtain ⟨first, length, middle, hfirst, hmeasured, hpayload⟩ := exists_length_of_read hread
    refine ⟨first, length, hfirst, ?_⟩
    obtain ⟨hverdict, hleft⟩ :=
      Queue.read_eq_outcome (PrefixedInteger.prefixwise_read lengthWidth) queue
    rw [hmeasured] at hverdict hleft
    obtain ⟨htext, hrest⟩ := Queue.read_eq_outcome
      (prefixwise_readPayload (first.toNat.testBit 7) length)
      (queue.read (PrefixedInteger.read lengthWidth)).2
    have hmiddle : (queue.read (PrefixedInteger.read lengthWidth)).2.unread = middle := hleft
    rw [hmiddle, hpayload] at htext hrest
    exact ⟨hverdict, htext, hrest⟩
  · have hvalues : Bits.values 64 = 64 * Bits.values 58 := Bits.values_add 6 58
    exact Checked.LiteralCoding.encode_eq mode (by omega)

/-- An octet with a codeword of eight bits makes payloads of equal length, too long for one octet of
length. -/
theorem readable_in_every_mode_and_shortest_in_auto_of_equal_payloads :
    let text : Octets := List.replicate 130 0x26
    let queue := Queue.ofOctets (encode .always text ++ [0x82])
    payloadLength .always text < 127 + PrefixedInteger.continuationValues ∧
      payloadLength .always text = payloadLength .never text ∧ text.length < Bits.values 58 ∧
      (∃ first length, queue.unread.head? = some first ∧
        let measured := queue.read (PrefixedInteger.read lengthWidth)
        let taken := measured.2.read (readPayload (first.toNat.testBit 7) length)
        measured.1 = .ok (some length) ∧ taken.1 = .ok (some text) ∧ taken.2.unread = [0x82]) ∧
      encode .auto text = encode .never text ∧
        Checked.LiteralCoding.encode .always text = some (encode .always text) := by
  intro text queue
  have hlength : payloadLength .always text < 127 + PrefixedInteger.continuationValues := by
    decide +kernel
  have hequal : payloadLength .always text = payloadLength .never text := by decide +kernel
  have hshort : text.length < Bits.values 58 := by decide +kernel
  obtain ⟨hread, -, hplain, hwords⟩ := readable_in_every_mode_and_shortest_in_auto text
  exact ⟨hlength, hequal, hshort, hread .always queue [0x82] hlength (Queue.unread_ofOctets _),
    hplain hequal, hwords hshort .always⟩

end StringLiteral

end HeaderCompression.Wire
