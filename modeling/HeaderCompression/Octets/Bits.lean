import HeaderCompression.Octets

/-!
# Bit strings

The prefix code is defined on bits, and octets carry their bits most significant first. A bit
string is a list whose head is the bit that travels first.
-/

namespace HeaderCompression

/-- A string of bits, the first one to travel at the head. -/
abbrev Bits := List Bool

namespace Bits

/-- How many values `width` bits have. -/
def values (width : Nat) : Nat :=
  Nat.pow 2 width

/-- The value of `width` bits that are all ones. -/
def ones (width : Nat) : Nat :=
  values width - 1

/-- The `width` low bits of `value`, most significant first. -/
def ofNat : (width value : Nat) → Bits
  | 0, _ => []
  | width + 1, value => value.testBit width :: ofNat width value

theorem values_succ (width : Nat) : values (width + 1) = 2 * values width :=
  Nat.pow_succ'

theorem values_pos (width : Nat) : 0 < values width :=
  Nat.pow_pos (by decide)

theorem values_mono {first second : Nat} (hle : first ≤ second) : values first ≤ values second :=
  Nat.pow_le_pow_right (by decide) hle

theorem values_lt_values {first second : Nat} (hlt : first < second) :
    values first < values second :=
  Nat.pow_lt_pow_right (by decide) hlt

theorem ones_lt_values (width : Nat) : ones width < values width :=
  Nat.sub_lt (values_pos width) Nat.one_pos

theorem values_add (first second : Nat) :
    values (first + second) = values first * values second :=
  Nat.pow_add 2 first second

@[simp]
theorem ofNat_length (width value : Nat) : (ofNat width value).length = width := by
  induction width with
  | zero => rfl
  | succ width hwidth => simp [ofNat, hwidth]

/-- The upper bits of a number are those of its quotient. -/
theorem ofNat_add (upper lower value : Nat) :
    ofNat (upper + lower) value = ofNat upper (value / values lower) ++ ofNat lower value := by
  induction upper with
  | zero => simp [ofNat]
  | succ upper hupper =>
    have hbit : value.testBit (upper + lower) = (value / values lower).testBit upper :=
      (Nat.testBit_div_two_pow value upper).symm
    rw [Nat.add_right_comm, ofNat, ofNat, hupper, hbit, List.cons_append]

/-- Bits above the width do not matter. -/
theorem ofNat_mod (width value : Nat) : ofNat width (value % values width) = ofNat width value := by
  have hlow : ∀ count ≤ width, ofNat count (value % values width) = ofNat count value := by
    intro count
    induction count with
    | zero => simp [ofNat]
    | succ count hcount =>
      intro hle
      have hlt : count < width := hle
      have hbit : (value % values width).testBit count = value.testBit count :=
        (Nat.testBit_mod_two_pow value width count).trans (by simp [hlt])
      rw [ofNat, ofNat, hcount (by omega), hbit]
  exact hlow width (Nat.le_refl width)

end Bits

namespace Octets

/-- The bits of an octet string in the order in which they travel. -/
def bits (octets : Octets) : Bits :=
  octets.flatMap fun octet ↦ Bits.ofNat 8 octet.toNat

@[simp]
theorem bits_nil : bits [] = [] := rfl

@[simp]
theorem bits_cons (octet : UInt8) (octets : Octets) :
    bits (octet :: octets) = Bits.ofNat 8 octet.toNat ++ bits octets := by
  simp [bits]

@[simp]
theorem bits_append (first second : Octets) :
    bits (first ++ second) = bits first ++ bits second := by
  simp [bits]

@[simp]
theorem bits_length (octets : Octets) : (bits octets).length = 8 * octets.length := by
  induction octets with
  | nil => rfl
  | cons octet octets hoctets => simp [hoctets]; omega

end Octets

end HeaderCompression
