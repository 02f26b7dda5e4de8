import HeaderCompression.Proofs.Octets.Reading
import HeaderCompression.Wire.PrefixedInteger

/-!
# Reading back prefixed integers

A reader that meets the octets of an integer reads that integer and leaves what follows, up to the
largest value that a continuation of 31 bits can reach. Whatever the octets are, the reader looks
at none beyond those that it takes.
-/

namespace HeaderCompression.Wire.PrefixedInteger

open Octets

/-- How many values a continuation may have. -/
def continuationValues : Nat :=
  Bits.values 31

/-! ## Prefixwise reading -/

theorem prefixwise_readGroups (group value : Nat) : Prefixwise (readGroups group value) where
  decided {octets rest} verdict hread := by
    fun_induction readGroups group value octets with
    | case1 group value =>
      exact absurd hread.symm (Reading.ofExcept_ne_incomplete verdict rest)
    | case2 group value octet others hoverflow =>
      obtain ⟨rfl, rfl⟩ := Reading.ofExcept_inj (.error .integerOverflow) verdict hread
      exact ⟨[octet], rfl, fun more ↦ by simp [readGroups, hoverflow]⟩
    | case3 group value octet others hfits sum hlast =>
      obtain ⟨rfl, rfl⟩ := Reading.ofExcept_inj (.ok sum) verdict hread
      exact ⟨[octet], rfl, fun more ↦ by simp [readGroups, hfits, hlast, sum]⟩
    | case4 group value octet others hfits sum hmore hothers =>
      obtain ⟨taken, rfl, htaken⟩ := hothers hread
      refine ⟨octet :: taken, rfl, fun more ↦ ?_⟩
      rw [List.cons_append, readGroups, if_neg hfits]
      simp only [hmore, if_false]
      exact htaken more

theorem prefixwise_readContinuation : Prefixwise readContinuation :=
  prefixwise_readGroups 0 0

theorem prefixwise_read (width : Nat) : Prefixwise (read width) where
  decided {octets rest} verdict hread := by
    cases octets with
    | nil => exact absurd hread.symm (Reading.ofExcept_ne_incomplete verdict rest)
    | cons octet octets =>
      cases hlow : lowBits? width octet with
      | some value =>
        simp only [read, hlow] at hread
        obtain ⟨rfl, rfl⟩ := Reading.ofExcept_inj (.ok value) verdict hread
        exact ⟨[octet], rfl, fun more ↦ by simp [read, hlow]⟩
      | none =>
        simp only [read, hlow] at hread
        obtain ⟨taken, rfl, htaken⟩ :=
          (prefixwise_readContinuation.map (Bits.ones width + ·)).decided verdict hread
        exact ⟨octet :: taken, rfl, fun more ↦ by simpa [read, hlow] using htaken more⟩

/-! ## Bounds -/

/-- A group weighs 128 times as much as the one before. -/
theorem values_group_succ (group : Nat) :
    Bits.values (7 * (group + 1)) = 128 * Bits.values (7 * group) := by
  rw [show 7 * (group + 1) = 7 + 7 * group by omega, Bits.values_add]
  rfl

theorem add_group_lt {group sum : Nat} (digit : Nat) (hsum : sum < Bits.values (7 * group)) :
    sum + digit % 128 * Bits.values (7 * group) < Bits.values (7 * (group + 1)) := by
  have hweight := values_group_succ group
  have hdigit : digit % 128 * Bits.values (7 * group) ≤ 127 * Bits.values (7 * group) :=
    Nat.mul_le_mul_right _ (by omega)
  omega

theorem readGroups_lt {group sum value : Nat} {octets rest : Octets} (hgroup : group ≤ 4)
    (hsum : sum < Bits.values (7 * group))
    (hread : readGroups group sum octets = .complete value rest) : value < continuationValues := by
  fun_induction readGroups group sum octets with
  | case1 group sum => cases hread
  | case2 group sum octet others hoverflow => cases hread
  | case3 group sum octet others hfits next hlast =>
    obtain ⟨rfl, -⟩ := Reading.complete.inj hread
    by_cases hfifth : group = 4
    · subst hfifth
      have hoctet : octet.toNat < 8 := by omega
      have hweight : Bits.values (7 * 4) = 268435456 := rfl
      have hvalues : continuationValues = 2147483648 := rfl
      rw [hweight] at hsum
      show sum + octet.toNat % 128 * Bits.values (7 * 4) < continuationValues
      rw [hweight]
      omega
    · have hvalues : Bits.values (7 * (group + 1)) ≤ continuationValues :=
        Bits.values_mono (by omega)
      exact Nat.lt_of_lt_of_le (add_group_lt octet.toNat hsum) hvalues
  | case4 group sum octet others hfits next hmore hothers =>
    have hgroup : group + 1 ≤ 4 := by omega
    exact hothers hgroup (add_group_lt octet.toNat hsum) hread

/-- A continuation has no more than 31 bits. -/
theorem readContinuation_lt {octets rest : Octets} {value : Nat}
    (hread : readContinuation octets = .complete value rest) : value < continuationValues :=
  readGroups_lt (Nat.zero_le 4) (Bits.values_pos 0) hread

/-! ## Round trip -/

theorem toNat_ofNat_of_lt {value : Nat} (hvalue : value < 256) :
    (UInt8.ofNat value).toNat = value := by
  rw [UInt8.toNat_ofNat']
  exact Nat.mod_eq_of_lt hvalue

/-- The groups from number `group` on weigh `128 ^ group` and have to fit in the bits left. -/
theorem readGroups_continuation {group value : Nat} (sum : Nat) (rest : Octets) (hgroup : group ≤ 4)
    (hvalue : value < Bits.values (31 - 7 * group)) :
    readGroups group sum (continuation value ++ rest) =
      .complete (sum + value * Bits.values (7 * group)) rest := by
  fun_induction continuation value generalizing group sum with
  | case1 value hlast =>
    have htoNat : (UInt8.ofNat value).toNat = value := toNat_ofNat_of_lt (by omega)
    have hfits : ¬(group = 4 ∧ 8 ≤ value) := by
      rintro ⟨rfl, hlarge⟩
      have hsmall : value < 8 := hvalue
      omega
    simp [readGroups, htoNat, hfits, hlast, Nat.mod_eq_of_lt hlast]
  | case2 value hmore hothers =>
    have htoNat : (UInt8.ofNat (value % 128 + 128)).toNat = value % 128 + 128 :=
      toNat_ofNat_of_lt (by omega)
    have hgroup : group < 4 := by
      refine Nat.lt_of_le_of_ne hgroup ?_
      rintro rfl
      have hsmall : value < 8 := hvalue
      omega
    have hwidth : 31 - 7 * group = 7 + (31 - 7 * (group + 1)) := by omega
    have hquotient : value / 128 < Bits.values (31 - 7 * (group + 1)) := by
      rw [hwidth, Bits.values_add] at hvalue
      exact Nat.div_lt_of_lt_mul hvalue
    have hdigits : value % 128 * Bits.values (7 * group) +
        value / 128 * Bits.values (7 * (group + 1)) = value * Bits.values (7 * group) := by
      rw [values_group_succ, ← Nat.mul_assoc, ← Nat.add_mul]
      congr 1
      omega
    have hfits : ¬(group = 4 ∧ 8 ≤ (UInt8.ofNat (value % 128 + 128)).toNat) := by omega
    have hcontinues : ¬(UInt8.ofNat (value % 128 + 128)).toNat < 128 := by omega
    rw [List.cons_append, readGroups, if_neg hfits]
    simp only [hcontinues, if_false]
    rw [hothers _ hgroup hquotient, htoNat, Nat.add_mod_right, Nat.mod_mod, Nat.add_assoc, hdigits]

theorem readContinuation_continuation {value : Nat} (hvalue : value < continuationValues)
    (rest : Octets) : readContinuation (continuation value ++ rest) = .complete value rest := by
  rw [readContinuation, readGroups_continuation 0 rest (Nat.zero_le 4) hvalue]
  simp [Bits.values]

/-- The low bits of an octet are free if the mask has none of them. -/
theorem toNat_or_ofNat {mask : UInt8} {width value : Nat} (hwidth : width ≤ 8)
    (hmask : mask.toNat % Bits.values width = 0) (hvalue : value < Bits.values width) :
    (mask ||| UInt8.ofNat value).toNat = mask.toNat + value := by
  have hvalues : Bits.values width ≤ 256 := Bits.values_mono hwidth
  have hmultiple := Nat.div_add_mod mask.toNat (Bits.values width)
  rw [hmask, Nat.add_zero] at hmultiple
  rw [UInt8.toNat_or, toNat_ofNat_of_lt (by omega), ← hmultiple]
  exact (Nat.two_pow_add_eq_or_of_lt hvalue _).symm

theorem toNat_or_mod {mask : UInt8} {width value : Nat} (hwidth : width ≤ 8)
    (hmask : mask.toNat % Bits.values width = 0) (hvalue : value < Bits.values width) :
    (mask ||| UInt8.ofNat value).toNat % Bits.values width = value := by
  rw [toNat_or_ofNat hwidth hmask hvalue, Nat.add_mod, hmask, Nat.zero_add, Nat.mod_mod,
    Nat.mod_eq_of_lt hvalue]

theorem read_encode {mask : UInt8} {width value : Nat} (hwidth : width ≤ 8)
    (hmask : mask.toNat % Bits.values width = 0)
    (hvalue : value < Bits.ones width + continuationValues) (rest : Octets) :
    read width (encode mask width value ++ rest) = .complete value rest := by
  have hones := Bits.ones_lt_values width
  by_cases hsmall : value < Bits.ones width
  · have hlow := toNat_or_mod hwidth hmask (Nat.lt_trans hsmall hones)
    simp only [encode, hsmall, if_true, List.singleton_append, read, lowBits?, hlow]
  · have hlow := toNat_or_mod hwidth hmask hones
    have hrest : value - Bits.ones width < continuationValues := by omega
    have hsum : Bits.ones width + (value - Bits.ones width) = value := by omega
    simp only [encode, hsmall, if_false, List.cons_append, read, lowBits?, hlow, Nat.lt_irrefl,
      readContinuation_continuation hrest, Reading.map_complete, hsum]

end HeaderCompression.Wire.PrefixedInteger
