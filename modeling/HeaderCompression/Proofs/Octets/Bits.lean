import HeaderCompression.Octets.Bits

/-!
# What bits say

A number put together from a high and a low part has the bits of the high part followed by those of
the low part. Numbers that fit in a width and strings of octets are known from their bits.
-/

namespace HeaderCompression

namespace Bits

theorem ofNat_mul_add (upper : Nat) {lower : Nat} (high : Nat) {low : Nat}
    (hlow : low < values lower) :
    ofNat (upper + lower) (high * values lower + low) = ofNat upper high ++ ofNat lower low := by
  have hquotient : (high * values lower + low) / values lower = high := by
    rw [Nat.mul_comm, Nat.mul_add_div (values_pos lower), Nat.div_eq_of_lt hlow, Nat.add_zero]
  have hremainder : (high * values lower + low) % values lower = low := by
    rw [Nat.mul_comm, Nat.mul_add_mod, Nat.mod_eq_of_lt hlow]
  rw [ofNat_add, hquotient, ← ofNat_mod lower, hremainder]

theorem ofNat_ones (width : Nat) : ofNat width (ones width) = List.replicate width true := by
  have hbits : ∀ count ≤ width, ofNat count (ones width) = List.replicate count true := by
    intro count
    induction count with
    | zero => exact fun _ ↦ rfl
    | succ count hcount =>
      intro hle
      have hbit : (ones width).testBit count = true :=
        (Nat.testBit_two_pow_sub_one width count).trans (decide_eq_true hle)
      rw [ofNat, hbit, hcount (by omega), List.replicate_succ]
  exact hbits width (Nat.le_refl width)

/-- An octet keeps the eight low bits of a number. -/
theorem ofNat_toNat_ofNat (value : Nat) : ofNat 8 (UInt8.ofNat value).toNat = ofNat 8 value := by
  rw [UInt8.toNat_ofNat']
  exact ofNat_mod 8 value

theorem testBit_eq_of_ofNat_eq {width first second : Nat}
    (hbits : ofNat width first = ofNat width second) {place : Nat} (hplace : place < width) :
    first.testBit place = second.testBit place := by
  induction width with
  | zero => exact absurd hplace (Nat.not_lt_zero place)
  | succ width hwidth =>
    obtain ⟨hhead, htail⟩ := List.cons.inj hbits
    rcases Nat.lt_succ_iff_lt_or_eq.1 hplace with hlower | rfl
    · exact hwidth htail hlower
    · exact hhead

/-- A number that fits in a width is known from as many bits. -/
theorem eq_of_ofNat_eq {width first second : Nat} (hfirst : first < values width)
    (hsecond : second < values width) (hbits : ofNat width first = ofNat width second) :
    first = second := by
  apply Nat.eq_of_testBit_eq
  intro place
  by_cases hplace : place < width
  · exact testBit_eq_of_ofNat_eq hbits hplace
  · have hvalues : values width ≤ Nat.pow 2 place :=
      values_mono (Nat.le_of_not_lt hplace)
    rw [Nat.testBit_lt_two_pow (Nat.lt_of_lt_of_le hfirst hvalues),
      Nat.testBit_lt_two_pow (Nat.lt_of_lt_of_le hsecond hvalues)]

end Bits

/-- Octets can be gone through one by one. -/
@[elab_as_elim]
theorem Octets.forall_octet {motive : UInt8 → Prop}
    (hall : ∀ value < 256, motive (UInt8.ofNat value)) (octet : UInt8) : motive octet := by
  have hoctet := hall octet.toNat octet.toNat_lt
  rwa [UInt8.ofNat_toNat] at hoctet

theorem Octets.bits_injective : Function.Injective Octets.bits := by
  intro first
  induction first with
  | nil =>
    intro second hbits
    have hlength := congrArg List.length hbits
    rw [bits_length, bits_length, List.length_nil] at hlength
    exact (List.eq_nil_of_length_eq_zero (by omega)).symm
  | cons octet first hfirst =>
    intro second hbits
    cases second with
    | nil => simp [Bits.ofNat] at hbits
    | cons other second =>
      rw [bits_cons, bits_cons] at hbits
      have hwidth : (Bits.ofNat 8 octet.toNat).length = (Bits.ofNat 8 other.toNat).length := by
        rw [Bits.ofNat_length, Bits.ofNat_length]
      obtain ⟨hoctet, hrest⟩ := List.append_inj hbits hwidth
      have hvalue := Bits.eq_of_ofNat_eq octet.toNat_lt other.toNat_lt hoctet
      rw [UInt8.toNat_inj.1 hvalue, hfirst hrest]

end HeaderCompression
