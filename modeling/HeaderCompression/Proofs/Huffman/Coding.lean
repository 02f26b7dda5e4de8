import HeaderCompression.Proofs.Huffman.Decoding
import HeaderCompression.Proofs.Octets.Bits

/-!
# What coding writes

Read as bits, a coded string is the codewords of its octets followed by padding. The writer holds
back fewer than eight bits between two codewords, and those bits are the ones that its octets so far
still lack. Decoding undoes coding.
-/

namespace HeaderCompression.Huffman

/-! ## Packing -/

theorem bits_leadingOctets (value : Nat) {width count : Nat} (hcount : 8 * count ≤ width) :
    Octets.bits (leadingOctets value width count) ++ Bits.ofNat (width - 8 * count) value =
      Bits.ofNat width value := by
  induction count generalizing width with
  | zero => rfl
  | succ count hleading =>
    have hwidth : width = 8 + (width - 8) := by omega
    have hrest : width - 8 * (count + 1) = width - 8 - 8 * count := by omega
    calc
      Octets.bits (leadingOctets value width (count + 1)) ++
          Bits.ofNat (width - 8 * (count + 1)) value =
          Bits.ofNat 8 (value / Bits.values (width - 8)) ++
            (Octets.bits (leadingOctets value (width - 8) count) ++
              Bits.ofNat (width - 8 - 8 * count) value) := by
        rw [leadingOctets, Octets.bits_cons, Bits.ofNat_toNat_ofNat, hrest, List.append_assoc]
      _ = Bits.ofNat 8 (value / Bits.values (width - 8)) ++ Bits.ofNat (width - 8) value := by
        rw [hleading (by omega)]
      _ = Bits.ofNat (8 + (width - 8)) value := (Bits.ofNat_add 8 (width - 8) value).symm
      _ = Bits.ofNat width value := by rw [← hwidth]

theorem exists_padding_of_finish (pending : Nat) {width : Nat} (hwidth : width < 8) :
    ∃ padding, isPadding padding = true ∧
      Octets.bits (finish pending width) = Bits.ofNat width pending ++ padding := by
  by_cases hzero : width = 0
  · subst hzero
    exact ⟨[], rfl, rfl⟩
  · refine ⟨List.replicate (8 - width) true, ?_, ?_⟩
    · rw [isPadding_iff, List.length_replicate]
      exact ⟨by omega, rfl⟩
    · have height : width + (8 - width) = 8 := by omega
      have hbits := Bits.ofNat_mul_add width pending (Bits.ones_lt_values (8 - width))
      rw [height, Bits.ofNat_ones] at hbits
      rw [finish, if_neg hzero, Octets.bits_cons, Bits.ofNat_toNat_ofNat, hbits, Octets.bits_nil,
        List.append_nil]

theorem codeword_value_lt (symbol : CodeSymbol) :
    (codeword symbol).value < Bits.values (codeword symbol).length := by
  have hall : ∀ pair ∈ codewords, pair.2.value < Bits.values pair.2.length := by decide +kernel
  exact hall (symbol, codeword symbol) (mem_codewords symbol)

/-- The bits held back come first, and what is written makes them up to whole octets. -/
theorem exists_padding_of_encodeFrom (pending : Nat) {width : Nat} (octets : Octets)
    (hwidth : width < 8) :
    ∃ padding, isPadding padding = true ∧
      Octets.bits (encodeFrom pending width octets) =
        Bits.ofNat width pending ++ (codewordBits octets ++ padding) := by
  induction octets generalizing pending width with
  | nil => exact exists_padding_of_finish pending hwidth
  | cons octet octets hoctets =>
    let word := codeword (.octet octet)
    let value := pending * Bits.values word.length + word.value
    let total := width + word.length
    obtain ⟨padding, hpadding, hrest⟩ := hoctets (value % Bits.values (total % 8))
      (Nat.mod_lt total (by decide : 0 < 8))
    refine ⟨padding, hpadding, ?_⟩
    have hleft : total - 8 * (total / 8) = total % 8 := by omega
    have hleading := bits_leadingOctets value (Nat.mul_div_le total 8)
    rw [hleft] at hleading
    have hvalue : Bits.ofNat total value = Bits.ofNat width pending ++ word.bits :=
      Bits.ofNat_mul_add width pending (codeword_value_lt (.octet octet))
    calc
      Octets.bits (encodeFrom pending width (octet :: octets)) =
          Octets.bits (leadingOctets value total (total / 8)) ++
            (Bits.ofNat (total % 8) value ++ (codewordBits octets ++ padding)) := by
        rw [encodeFrom, Octets.bits_append, hrest, Bits.ofNat_mod]
      _ = Bits.ofNat total value ++ (codewordBits octets ++ padding) := by
        rw [← List.append_assoc, hleading]
      _ = Bits.ofNat width pending ++ (codewordBits (octet :: octets) ++ padding) := by
        rw [hvalue, codewordBits_cons, List.append_assoc, List.append_assoc]

/-! ## Round trip and lengths -/

theorem exists_padding_of_encode (octets : Octets) :
    ∃ padding, isPadding padding = true ∧
      Octets.bits (encode octets) = codewordBits octets ++ padding :=
  exists_padding_of_encodeFrom 0 octets (by decide)

theorem decode_encode (octets : Octets) : decode (encode octets) = .ok octets :=
  decode_eq_ok_iff.2 (exists_padding_of_encode octets)

theorem length_encode (octets : Octets) : (encode octets).length = encodedLength octets := by
  obtain ⟨padding, hpadding, hbits⟩ := exists_padding_of_encode octets
  have hshort := (isPadding_iff.1 hpadding).1
  have hlength := congrArg List.length hbits
  rw [Octets.bits_length, List.length_append, length_codewordBits] at hlength
  unfold encodedLength
  omega

end HeaderCompression.Huffman
