import HeaderCompression.Proofs.Wire.Continuations
import HeaderCompression.Proofs.Wire.StringLiteral

/-!
# The shortest form of an integer

The octets that are written for an integer are read back up to the largest value that readers
accept, and are found too large beyond it. A reader accepts other forms of the same value as well,
with digits that are zeros at the end; what is written is the only form that is not longer.
-/

namespace HeaderCompression.Wire.PrefixedInteger

open Octets

variable {mask : UInt8} {width value : Nat}

/-! ## Values that are too large -/

/-- As many octets as there are digits below a large value go on. -/
theorem exists_continuation_eq_append {count value : Nat} (hvalue : Bits.values (7 * count) ≤ value) :
    ∃ groups, GoesOn groups ∧ groups.length = count ∧
      continuation value = groups ++ continuation (value / Bits.values (7 * count)) := by
  induction count generalizing value with
  | zero => exact ⟨[], goesOn_nil, rfl, by simp [Bits.values]⟩
  | succ count hcount =>
    rw [values_group_succ] at hvalue ⊢
    have hpos := Bits.values_pos (7 * count)
    have hmore : ¬value < 128 := by omega
    have hquotient : Bits.values (7 * count) ≤ value / 128 :=
      (Nat.le_div_iff_mul_le (by decide)).2 (by omega)
    obtain ⟨groups, hgoesOn, hlength, hgroups⟩ := hcount hquotient
    have hoctet : 128 ≤ (UInt8.ofNat (value % 128 + 128)).toNat := by
      rw [toNat_ofNat_of_lt (by omega)]
      omega
    refine ⟨_ :: groups, goesOn_cons_iff.2 ⟨hoctet, hgoesOn⟩, congrArg (· + 1) hlength, ?_⟩
    rw [continuation, if_neg hmore, hgroups, Nat.div_div_eq_div_mul]
    rfl

theorem exists_continuation_eq_cons (hvalue : 8 ≤ value) :
    ∃ octet others, 8 ≤ octet.toNat ∧ continuation value = octet :: others := by
  rw [continuation]
  by_cases hlast : value < 128
  · refine ⟨UInt8.ofNat value, [], ?_, if_pos hlast⟩
    rwa [toNat_ofNat_of_lt (by omega)]
  · refine ⟨UInt8.ofNat (value % 128 + 128), continuation (value / 128), ?_, if_neg hlast⟩
    rw [toNat_ofNat_of_lt (by omega)]
    omega

theorem readContinuation_continuation_of_le (hvalue : continuationValues ≤ value) (rest : Octets) :
    ∃ left, readContinuation (continuation value ++ rest) = .failed .integerOverflow left := by
  have hsplit : continuationValues = 8 * Bits.values (7 * 4) := Bits.values_add 3 (7 * 4)
  have hpos := Bits.values_pos (7 * 4)
  obtain ⟨groups, hgoesOn, hlength, hgroups⟩ :=
    exists_continuation_eq_append (show Bits.values (7 * 4) ≤ value by omega)
  have hfifth : 8 ≤ value / Bits.values (7 * 4) :=
    (Nat.le_div_iff_mul_le hpos).2 (hsplit ▸ hvalue)
  obtain ⟨octet, others, hoctet, hothers⟩ := exists_continuation_eq_cons hfifth
  refine ⟨others ++ rest, ?_⟩
  rw [hgroups, hothers, List.append_assoc, List.cons_append]
  exact readContinuation_of_long hgoesOn hlength hoctet _

/-- Beyond the largest value the octets of an integer are refused. -/
theorem read_encode_of_le (hwidth : width ≤ 8) (hmask : mask.toNat % Bits.values width = 0)
    (hvalue : Bits.ones width + continuationValues ≤ value) (rest : Octets) :
    ∃ left, read width (encode mask width value ++ rest) = .failed .integerOverflow left := by
  have hsaturated : IsSaturated width (mask ||| UInt8.ofNat (Bits.ones width)) :=
    toNat_or_mod hwidth hmask (Bits.ones_lt_values width)
  have hlarge : continuationValues ≤ value - Bits.ones width := by omega
  obtain ⟨left, hleft⟩ := readContinuation_continuation_of_le hlarge rest
  refine ⟨left, ?_⟩
  rw [encode, if_neg (by omega), List.cons_append, read_cons_of_isSaturated hsaturated, hleft]
  rfl

/-! ## Shortest forms -/

/-- The first octet has the high bits of the mask. -/
def HasMask (mask : UInt8) (width : Nat) (octets : Octets) : Prop :=
  ∃ first ∈ octets.head?, first.toNat / Bits.values width = mask.toNat / Bits.values width

theorem eq_or_ofNat_of_div_eq {first : UInt8} (hwidth : width ≤ 8)
    (hmask : mask.toNat % Bits.values width = 0)
    (hfirst : first.toNat / Bits.values width = mask.toNat / Bits.values width) :
    first = mask ||| UInt8.ofNat (first.toNat % Bits.values width) := by
  have hlow := Nat.mod_lt first.toNat (Bits.values_pos width)
  apply UInt8.toNat_inj.1
  calc
    first.toNat = Bits.values width * (first.toNat / Bits.values width) +
        first.toNat % Bits.values width := (Nat.div_add_mod _ _).symm
    _ = mask.toNat + first.toNat % Bits.values width := by
      rw [hfirst, Nat.mul_div_cancel' (Nat.dvd_of_mod_eq_zero hmask)]
    _ = (mask ||| UInt8.ofNat (first.toNat % Bits.values width)).toNat :=
      (toNat_or_ofNat hwidth hmask hlow).symm

theorem hasMask_cons_iff {first : UInt8} {octets : Octets} :
    HasMask mask width (first :: octets) ↔
      first.toNat / Bits.values width = mask.toNat / Bits.values width := by
  simp [HasMask]

theorem hasMask_encode (hwidth : width ≤ 8) (hmask : mask.toNat % Bits.values width = 0)
    (value : Nat) : HasMask mask width (encode mask width value) := by
  obtain ⟨low, tail, hlow, hencode⟩ := exists_encode_eq_cons mask width value
  obtain ⟨high, hhigh⟩ := Nat.dvd_of_mod_eq_zero hmask
  rw [hencode, hasMask_cons_iff, toNat_or_ofNat hwidth hmask hlow, hhigh,
    Nat.mul_add_div (Bits.values_pos width), Nat.div_eq_of_lt hlow,
    Nat.mul_div_cancel_left _ (Bits.values_pos width), Nat.add_zero]

/-- A continuation is written with the fewest digits. -/
theorem continuation_shortest {taken : Octets} (hwhole : IsContinuation taken value) :
    (continuation value).length ≤ taken.length ∧
      (taken.length ≤ (continuation value).length → taken = continuation value) := by
  cases hwhole with
  | @ended groups last hgoesOn hlength hlast hfifth =>
    clear hlength hfifth
    induction groups with
    | nil =>
      have hamount : amount ([] ++ [last]) = last.toNat := by
        simpa using Nat.mod_eq_of_lt hlast
      rw [hamount, continuation, if_pos hlast, UInt8.ofNat_toNat]
      exact ⟨Nat.le_refl 1, fun _ ↦ rfl⟩
    | cons octet groups hgroups =>
      obtain ⟨hoctet, hothers⟩ := goesOn_cons_iff.1 hgoesOn
      have hrest := hgroups hothers
      have hupper := octet.toNat_lt
      rw [List.cons_append, amount_cons, continuation]
      generalize amount (groups ++ [last]) = others at hrest ⊢
      have hremainder : (octet.toNat % 128 + 128 * others) % 128 + 128 = octet.toNat := by omega
      have hquotient : (octet.toNat % 128 + 128 * others) / 128 = others := by omega
      by_cases hsmall : octet.toNat % 128 + 128 * others < 128
      · -- The digits above the lowest one are all zeros.
        simp [hsmall]
      · rw [if_neg hsmall, hremainder, hquotient, UInt8.ofNat_toNat, List.length_cons,
          List.length_cons]
        refine ⟨Nat.succ_le_succ hrest.1, fun hle ↦ ?_⟩
        rw [hrest.2 (Nat.le_of_succ_le_succ hle)]

theorem encode_shortest_of_isInteger {taken : Octets} (hwidth : width ≤ 8)
    (hmask : mask.toNat % Bits.values width = 0) (htaken : HasMask mask width taken)
    (hinteger : IsInteger width taken value) :
    (encode mask width value).length ≤ taken.length ∧
      (taken.length ≤ (encode mask width value).length → taken = encode mask width value) := by
  cases hinteger with
  | @low first hfirst =>
    have hhigh := hasMask_cons_iff.1 htaken
    rw [encode, if_pos (lt_ones_of_not_isSaturated hfirst),
      ← eq_or_ofNat_of_div_eq hwidth hmask hhigh]
    exact ⟨Nat.le_refl 1, fun _ ↦ rfl⟩
  | @continued first taken rest hfirst hwhole =>
    have hhigh := hasMask_cons_iff.1 htaken
    have hlarge : ¬Bits.ones width + rest < Bits.ones width := by omega
    have hoctet := eq_or_ofNat_of_div_eq hwidth hmask hhigh
    rw [hfirst] at hoctet
    obtain ⟨hlength, hunique⟩ := continuation_shortest hwhole
    rw [encode, if_neg hlarge, Nat.add_sub_cancel_left, ← hoctet, List.length_cons, List.length_cons]
    refine ⟨Nat.succ_le_succ hlength, fun hle ↦ ?_⟩
    rw [← hunique (Nat.le_of_succ_le_succ hle)]

/-- Of all octets that read as a value and have the high bits of the mask, only those that are
written for the value are not longer. -/
theorem encode_shortest {octets rest : Octets} (hwidth : width ≤ 8)
    (hmask : mask.toNat % Bits.values width = 0) (hoctets : HasMask mask width octets)
    (hread : read width octets = .complete value rest) :
    (encode mask width value).length ≤ octets.length ∧
      (octets.length ≤ (encode mask width value).length → octets = encode mask width value) := by
  obtain ⟨taken, rfl, hinteger⟩ := (classifies_read width).exists_of_complete hread
  have htaken : HasMask mask width taken := by
    cases hinteger with
    | low hfirst => exact hoctets
    | continued hfirst hwhole => exact hoctets
  obtain ⟨hlength, hunique⟩ := encode_shortest_of_isInteger hwidth hmask htaken hinteger
  rw [List.length_append]
  refine ⟨by omega, fun hle ↦ ?_⟩
  have hnothing : rest = [] := List.eq_nil_of_length_eq_zero (by omega)
  rw [hnothing, List.append_nil]
  exact hunique (by omega)

/-! ## Writing and reading -/

/-- For every value of 64 bits, words of 64 bits are enough to write it, the first octet has the
high bits of the mask, and what is written is read back, up to what follows it, exactly if the value
is below the limit of readers; otherwise it is found too large. It is the one shortest form among
all octets with that mask from which the value is read. -/
theorem encode_is_exact_and_shortest {mask : UInt8} {width value : Nat} (hpos : 0 < width)
    (hwidth : width ≤ 8) (hmask : mask.toNat % Bits.values width = 0)
    (hvalue : value < Bits.values 64) :
    let written := encode mask width value
    let limit := Bits.ones width + continuationValues
    Checked.IntegerCoding.encode mask width value = some written ∧
      HasMask mask width written ∧
      (∀ (queue : Queue) (rest : Octets), queue.unread = written ++ rest →
        ((queue.read (read width)).1 = .ok (some value) ∧
          (queue.read (read width)).2.unread = rest ↔ value < limit) ∧
        (limit ≤ value → (queue.read (read width)).1 = .error .integerOverflow)) ∧
      ∀ queue : Queue, HasMask mask width queue.unread →
        (queue.read (read width)).1 = .ok (some value) →
          written.length ≤ queue.available ∧
            (queue.available = written.length → queue.unread = written) := by
  intro written limit
  refine ⟨Checked.IntegerCoding.encode_eq mask hpos hwidth hvalue,
    hasMask_encode hwidth hmask value, fun queue rest hunread ↦ ?_, fun queue hqueue hread ↦ ?_⟩
  · obtain ⟨hverdict, hleft⟩ := Queue.read_eq_outcome (prefixwise_read width) queue
    rw [hverdict, hleft, hunread]
    rcases Nat.lt_or_ge value limit with hsmall | hlarge
    · rw [read_encode hwidth hmask hsmall rest]
      exact ⟨⟨fun _ ↦ hsmall, fun _ ↦ ⟨rfl, rfl⟩⟩, fun hle ↦ absurd hsmall (Nat.not_lt_of_le hle)⟩
    · obtain ⟨left, hfailed⟩ := read_encode_of_le hwidth hmask hlarge rest
      rw [hfailed]
      refine ⟨⟨?_, fun hlt ↦ absurd hlt (Nat.not_lt_of_le hlarge)⟩, fun _ ↦ rfl⟩
      rintro ⟨hok, -⟩
      cases hok
  · obtain ⟨hverdict, -⟩ := Queue.read_eq_outcome (prefixwise_read width) queue
    rw [hread] at hverdict
    cases hreading : read width queue.unread with
    | incomplete => rw [hreading] at hverdict; cases hverdict
    | failed error rest => rw [hreading] at hverdict; cases hverdict
    | complete other rest =>
      rw [hreading] at hverdict
      cases hverdict
      rw [← Queue.length_unread]
      obtain ⟨hlength, hunique⟩ := encode_shortest hwidth hmask hqueue hreading
      exact ⟨hlength, fun heq ↦ hunique (Nat.le_of_eq heq)⟩

/-- The largest value that can be read behind a prefix of five bits. -/
theorem encode_is_exact_and_shortest_of_largest_value :
    let value := 2147483678
    let written := encode 0x20 5 value
    let queue := Queue.ofOctets (written ++ [0x82])
    value < Bits.values 64 ∧ written = [0x3f, 0xff, 0xff, 0xff, 0xff, 0x07] ∧
      Checked.IntegerCoding.encode 0x20 5 value = some written ∧
      (queue.read (read 5)).1 = .ok (some value) ∧ (queue.read (read 5)).2.unread = [0x82] ∧
      written.length ≤ queue.available := by
  intro value written queue
  have hvalue : value < Bits.values 64 := by decide
  have hwidth : 0 < 5 := by decide
  obtain ⟨hchecked, -, hexact, hshortest⟩ :=
    encode_is_exact_and_shortest hwidth (by decide) (by decide : (0x20 : UInt8).toNat % _ = 0) hvalue
  have hread := (hexact queue [0x82] (Queue.unread_ofOctets _)).1.2 (by decide)
  have hmask : HasMask 0x20 5 queue.unread := ⟨0x3f, by decide +kernel, by decide⟩
  exact ⟨hvalue, by decide +kernel, hchecked, hread.1, hread.2, (hshortest queue hmask hread.1).1⟩

end HeaderCompression.Wire.PrefixedInteger
