import HeaderCompression.Proofs.Checked.Operations
import HeaderCompression.Proofs.Huffman.Coding

/-!
# Checked coding of strings

Codewords are shifted into a word of 64 bits, from which whole octets are written as soon as there
are any. Between two octets of the string fewer than eight bits wait there and all others are
cleared, so that a codeword of 30 bits always finds room. The length of a coded string is counted
on its own, before it is coded, and has to agree with what is written.
-/

namespace HeaderCompression.Checked.HuffmanCoding

open HeaderCompression.Huffman

/-! ## Coding with words -/

/-- The word whose low `count` bits are ones. -/
def lowOnes (count : Nat) : Option Nat := do
  let next ← shiftLeft 64 1 count
  difference next 1

/-- Write octets while there are eight bits, and say how many bits are left. After `rounds` octets
there is no result. -/
def drain : (rounds word bits : Nat) → Option (Octets × Nat)
  | 0, _, _ => none
  | rounds + 1, word, bits =>
    if bits < 8 then some ([], bits)
    else do
      let excess ← difference bits 8
      let shifted ← shiftRight 64 word excess
      let (octets, left) ← drain rounds word excess
      return (UInt8.ofNat shifted :: octets, left)

/-- Fill up the last octet with ones. -/
def finish (word bits : Nat) : Option Octets :=
  if bits = 0 then some []
  else do
    let missing ← difference 8 bits
    let shifted ← shiftLeft 64 word missing
    let ones ← lowOnes missing
    return [UInt8.ofNat (shifted ||| ones)]

def encodeFrom (word bits : Nat) : Octets → Option Octets
  | [] => finish word bits
  | octet :: octets => do
    let code ← codebook[octet.toNat]?
    let shifted ← shiftLeft 64 word code.length
    let filled ← sum largestShort bits code.length
    let (written, left) ← drain (filled + 1) (shifted ||| code.value) filled
    let ones ← lowOnes left
    let others ← encodeFrom ((shifted ||| code.value) &&& ones) left octets
    return written ++ others

/-- Code a string. -/
def encode (octets : Octets) : Option Octets :=
  encodeFrom 0 0 octets

def countBits (bits : Nat) (octet : UInt8) : Option Nat := do
  let code ← codebook[octet.toNat]?
  sum Size.largest bits code.length

/-- The length of a coded string. -/
def encodedLength (octets : Octets) : Option Nat := do
  let bits ← octets.foldlM countBits 0
  let filled ← sum Size.largest bits 7
  quotient filled 8

/-! ## Results -/

theorem getElem?_codebook (octet : UInt8) :
    codebook[octet.toNat]? = some (codeword (.octet octet)) := by
  have hplace : octet.toNat < codebook.size := codebook_size ▸ (CodeSymbol.octet octet).place_lt
  rw [Array.getElem?_eq_getElem hplace]
  rfl

theorem shiftLeft_eq_mul {word count : Nat} (hcount : count < 64)
    (hword : word * Bits.values count < Bits.values 64) :
    shiftLeft 64 word count = some (word * Bits.values count) := by
  rw [shiftLeft_of_lt hcount, Nat.mod_eq_of_lt hword]

theorem lowOnes_eq {count : Nat} (hcount : count < 64) :
    lowOnes count = some (Bits.ones count) := by
  have hfits : 1 * Bits.values count < Bits.values 64 := by
    rw [Nat.one_mul]
    exact Bits.values_lt_values hcount
  rw [lowOnes, bind_of_eq_some (shiftLeft_eq_mul hcount hfits), Nat.one_mul,
    difference_of_le (Bits.values_pos count)]
  rfl

theorem drain_eq {rounds bits : Nat} (word : Nat) (hrounds : bits < rounds) (hbits : bits < 64) :
    drain rounds word bits = some (leadingOctets word bits (bits / 8), bits % 8) := by
  induction rounds generalizing bits with
  | zero => exact absurd hrounds (Nat.not_lt_zero bits)
  | succ rounds hrec =>
    rw [drain]
    by_cases hfew : bits < 8
    · rw [if_pos hfew, Nat.div_eq_of_lt hfew, Nat.mod_eq_of_lt hfew]
      rfl
    · have hquotient : bits / 8 = (bits - 8) / 8 + 1 := by omega
      have hremainder : bits % 8 = (bits - 8) % 8 := by omega
      rw [if_neg hfew, bind_of_eq_some (difference_of_le (by omega)),
        bind_of_eq_some (shiftRight_of_lt (by omega)),
        bind_of_eq_some (hrec (by omega) (by omega)), hquotient, hremainder, leadingOctets]
      rfl

theorem finish_eq {word bits : Nat} (hword : word < Bits.values bits) (hbits : bits < 8) :
    finish word bits = some (Huffman.finish word bits) := by
  unfold finish Huffman.finish
  by_cases hzero : bits = 0
  · rw [if_pos hzero, if_pos hzero]
  · have hoctet : word * Bits.values (8 - bits) < Bits.values 8 := by
      have hproduct := Nat.mul_lt_mul_of_pos_right hword (Bits.values_pos (8 - bits))
      rwa [← Bits.values_add, Nat.add_sub_cancel' (Nat.le_of_lt hbits)] at hproduct
    have hshift : word * Bits.values (8 - bits) < Bits.values 64 :=
      Nat.lt_of_lt_of_le hoctet (Bits.values_mono (by decide))
    rw [if_neg hzero, if_neg hzero, bind_of_eq_some (difference_of_le (Nat.le_of_lt hbits)),
      bind_of_eq_some (shiftLeft_eq_mul (by omega) hshift),
      bind_of_eq_some (lowOnes_eq (by omega)), mul_values_or _ (Bits.ones_lt_values _)]
    rfl

/-- The bits that wait are those of the word, and between two octets there are no others in it. -/
theorem encodeFrom_eq {word bits : Nat} (octets : Octets) (hword : word < Bits.values bits)
    (hbits : bits < 8) : encodeFrom word bits octets = some (Huffman.encodeFrom word bits octets) := by
  induction octets generalizing word bits with
  | nil => exact finish_eq hword hbits
  | cons octet octets hrec =>
    let code := codeword (.octet octet)
    have hlength : code.length ≤ 30 := (codeword_length_bounds (.octet octet)).2
    have hvalue : code.value < Bits.values code.length := codeword_value_lt (.octet octet)
    have hshort : bits + code.length ≤ largestShort := by
      have hlargest : largestShort = 4294967295 := rfl
      omega
    have hshift : word * Bits.values code.length < Bits.values 64 := by
      have hproduct := Nat.mul_lt_mul_of_pos_right hword (Bits.values_pos code.length)
      rw [← Bits.values_add] at hproduct
      exact Nat.lt_of_lt_of_le hproduct (Bits.values_mono (by omega))
    have hwaiting : ∀ total : Nat, total % Bits.values ((bits + code.length) % 8) <
        Bits.values ((bits + code.length) % 8) :=
      fun total ↦ Nat.mod_lt total (Bits.values_pos _)
    rw [encodeFrom, bind_of_eq_some (getElem?_codebook octet),
      bind_of_eq_some (shiftLeft_eq_mul (by omega) hshift), bind_of_eq_some (sum_of_le hshort),
      mul_values_or _ hvalue, bind_of_eq_some (drain_eq _ (Nat.lt_succ_self _) (by omega))]
    dsimp only
    rw [bind_of_eq_some (lowOnes_eq (by omega)), and_ones,
      bind_of_eq_some (hrec (hwaiting _) (Nat.mod_lt _ (by decide)))]
    rfl

theorem encode_eq (octets : Octets) : encode octets = some (Huffman.encode octets) :=
  encodeFrom_eq octets (Bits.values_pos 0) (by decide)

theorem foldlM_countBits_eq {bits : Nat} {octets : Octets}
    (hbits : bits + encodedBits octets ≤ Size.largest) :
    octets.foldlM countBits bits = some (bits + encodedBits octets) := by
  induction octets generalizing bits with
  | nil => rfl
  | cons octet octets hrec =>
    rw [encodedBits, ← Nat.add_assoc] at hbits
    have hcount : countBits bits octet = some (bits + (codeword (.octet octet)).length) := by
      rw [countBits, bind_of_eq_some (getElem?_codebook octet)]
      exact sum_of_le (Nat.le_trans (Nat.le_add_right _ _) hbits)
    rw [List.foldlM_cons, bind_of_eq_some hcount, hrec hbits, encodedBits, Nat.add_assoc]

theorem encodedLength_eq {octets : Octets} (hlength : 32 * octets.length < Bits.values 64) :
    encodedLength octets = some (Huffman.encodedLength octets) := by
  have hlargest : Size.largest + 1 = Bits.values 64 := rfl
  have hbounds := (encodedBits_bounds octets).2
  have hstart : 0 + encodedBits octets ≤ Size.largest := by omega
  have hfilled : encodedBits octets + 7 ≤ Size.largest := by
    have hlarge := largest_eq
    omega
  rw [encodedLength, bind_of_eq_some (foldlM_countBits_eq hstart), Nat.zero_add,
    bind_of_eq_some (sum_of_le hfilled), quotient_of_pos (by decide)]
  rfl

/-! ## What is written -/

/-- A string is coded as the codewords of its octets one after the other and fewer than eight ones,
and it is as long as counted. This holds of coding with words of 64 bits, none of whose operations
fails, and of the length counted with such words. -/
theorem codewords_and_ones_are_written {octets : Octets}
    (hlength : 32 * octets.length < Bits.values 64) :
    ∃ coded, encode octets = some coded ∧ Huffman.encode octets = coded ∧
      encodedLength octets = some coded.length ∧ Huffman.encodedLength octets = coded.length ∧
      ∃ count < 8, Octets.bits coded = codewordBits octets ++ List.replicate count true := by
  obtain ⟨padding, hpadding, hbits⟩ := exists_padding_of_encode octets
  obtain ⟨hshort, hones⟩ := isPadding_iff.1 hpadding
  have hcounted := length_encode octets
  refine ⟨Huffman.encode octets, encode_eq octets, rfl, ?_, hcounted.symm, padding.length, hshort,
    ?_⟩
  · rw [encodedLength_eq hlength, hcounted]
  · rw [hbits, ← hones]

/-- Three codewords of five bits leave seven bits waiting when one of thirty bits comes, and then no
word can be fuller. -/
theorem codewords_and_ones_are_written_of_long_codeword :
    let octets : Octets := [0x61, 0x61, 0x61, 0x0a]
    32 * octets.length < Bits.values 64 ∧
      ∃ coded, encode octets = some coded ∧ Huffman.encode octets = coded ∧
        encodedLength octets = some coded.length ∧ Huffman.encodedLength octets = coded.length ∧
        ∃ count < 8, Octets.bits coded = codewordBits octets ++ List.replicate count true := by
  intro octets
  have hlength : 32 * octets.length < Bits.values 64 := by decide +kernel
  exact ⟨hlength, codewords_and_ones_are_written hlength⟩

end HeaderCompression.Checked.HuffmanCoding
