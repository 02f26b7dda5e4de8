import HeaderCompression.Proofs.Checked.Queue

/-!
# Checked coding of integers

An integer of 64 bits is written with its low bits in one octet and then seven bits at a time,
which takes at most ten octets more. It is read from a queue that is marked where it begins, and
the queue is rewound to the mark if the octets that have arrived end inside it.
-/

namespace HeaderCompression.Checked.IntegerCoding

open Octets

/-! ## Coding with words -/

/-- The largest number of `width` bits, which are those of an octet. -/
def lowOnes (width : Nat) : Option Nat := do
  let unused ← difference 8 width
  shiftRight 8 255 unused

/-- Write seven bits at a time. After `rounds` octets there is no result. -/
def continuation : (rounds rest : Nat) → Option Octets
  | 0, _ => none
  | rounds + 1, rest =>
    if rest < 128 then some [UInt8.ofNat rest]
    else do
      let further ← shiftRight 64 rest 7
      let others ← continuation rounds further
      return (UInt8.ofNat (rest &&& 127) ||| 128) :: others

def encode (mask : UInt8) (width value : Nat) : Option Octets := do
  let ones ← lowOnes width
  if value < ones then return [mask ||| UInt8.ofNat value]
  else
    let rest ← difference value ones
    let others ← continuation 10 rest
    return (mask ||| UInt8.ofNat ones) :: others

def read (width : Nat) (queue : Queue) : Option (Except DecodingError (Option Nat) × Queue) := do
  match ← Input.readOctet queue.setMark with
  | (none, queue) => return (.ok none, queue)
  | (some octet, queue) =>
    let ones ← lowOnes width
    if octet.toNat &&& ones < ones then return (.ok (some (octet.toNat &&& ones)), queue)
    else
      match ← Input.readGroups 5 0 0 queue with
      | (.ok none, queue) => return (.ok none, queue.rewind)
      | (.ok (some rest), queue) =>
        let value ← sum Size.largest ones rest
        return (.ok (some value), queue)
      | (.error error, queue) => return (.error error, queue)

/-! ## Results -/

variable {width value : Nat} {queue : Queue}

theorem lowOnes_eq (hpos : 0 < width) (hwidth : width ≤ 8) :
    lowOnes width = some (Bits.ones width) := by
  have hall : ∀ width ≤ 8, 0 < width → lowOnes width = some (Bits.ones width) := by decide
  exact hall width hwidth hpos

/-- The high bit of an octet is put on top of seven others. -/
theorem ofNat_or_highest (rest : Nat) :
    UInt8.ofNat (rest &&& 127) ||| 128 = UInt8.ofNat (rest % 128 + 128) := by
  have hlow : rest % 128 < Bits.values 7 := Nat.mod_lt rest (by decide)
  have hand : rest &&& 127 = rest % 128 := and_ones rest 7
  apply UInt8.toNat_inj.1
  rw [hand, UInt8.toNat_or, Wire.PrefixedInteger.toNat_ofNat_of_lt (by omega),
    Wire.PrefixedInteger.toNat_ofNat_of_lt (by omega)]
  exact or_mul_values 1 hlow

theorem continuation_eq {rounds rest : Nat} (hrest : rest < Bits.values (7 * rounds))
    (hpos : 0 < rounds) :
    continuation rounds rest = some (Wire.PrefixedInteger.continuation rest) := by
  induction rounds generalizing rest with
  | zero => exact absurd hpos (Nat.lt_irrefl 0)
  | succ rounds hrec =>
    rw [continuation, Wire.PrefixedInteger.continuation]
    by_cases hlast : rest < 128
    · rw [if_pos hlast, if_pos hlast]
    · have hquotient : rest / Bits.values 7 < Bits.values (7 * rounds) := by
        apply Nat.div_lt_of_lt_mul
        rw [← Bits.values_add]
        rwa [Nat.mul_succ, Nat.add_comm] at hrest
      have hrounds : 0 < rounds := by
        rcases Nat.eq_zero_or_pos rounds with rfl | hmore
        · exact absurd hrest hlast
        · exact hmore
      rw [if_neg hlast, if_neg hlast, bind_of_eq_some (shiftRight_of_lt (by decide)),
        bind_of_eq_some (hrec hquotient hrounds), ofNat_or_highest]
      rfl

/-- Writing an integer of 64 bits fails in no operation. -/
theorem encode_eq (mask : UInt8) (hpos : 0 < width) (hwidth : width ≤ 8)
    (hvalue : value < Bits.values 64) :
    encode mask width value = some (Wire.PrefixedInteger.encode mask width value) := by
  unfold encode Wire.PrefixedInteger.encode
  rw [bind_of_eq_some (lowOnes_eq hpos hwidth)]
  by_cases hsmall : value < Bits.ones width
  · rw [if_pos hsmall, if_pos hsmall]
    rfl
  · have hrest : value - Bits.ones width < Bits.values (7 * 10) :=
      Nat.lt_of_le_of_lt (Nat.sub_le _ _)
        (Nat.lt_trans hvalue (Bits.values_lt_values (by decide)))
    rw [if_neg hsmall, if_neg hsmall,
      bind_of_eq_some (difference_of_le (Nat.le_of_not_lt hsmall)),
      bind_of_eq_some (continuation_eq hrest (by decide))]
    rfl

/-- Reading an integer fails in no operation. -/
theorem read_eq (hpos : 0 < width) (hwidth : width ≤ 8) (horder : Input.InOrder queue) :
    read width queue = some (queue.read (Wire.PrefixedInteger.read width)) := by
  have hmarked : Input.InOrder queue.setMark := ⟨horder.position_le, horder.size_lt⟩
  rw [read, Queue.read]
  cases hunread : queue.unread with
  | nil =>
    have hnone : queue.setMark.unread = [] := hunread
    rw [bind_of_eq_some (Input.readOctet_nil hnone)]
    rfl
  | cons octet rest =>
    have hmore : queue.setMark.unread = octet :: rest := hunread
    have hsuffix : rest <:+ queue.setMark.unread := by
      rw [hmore]
      exact List.suffix_cons octet rest
    have hleaves := Input.leaves_leave hsuffix
    rw [bind_of_eq_some (Input.readOctet_cons hmarked hmore)]
    dsimp only
    rw [bind_of_eq_some (lowOnes_eq hpos hwidth), and_ones, Wire.PrefixedInteger.read,
      Wire.PrefixedInteger.lowBits?]
    by_cases hlow : octet.toNat % Bits.values width < Bits.ones width
    · rw [if_pos hlow, if_pos hlow]
      rfl
    · have hgroups := Input.readGroups_eq (hleaves.inOrder hmarked) (rfl : 5 + 0 = 5) (by decide)
        (Bits.values_pos (7 * 0))
      rw [if_neg hlow, if_neg hlow, bind_of_eq_some hgroups, hleaves.unread_eq,
        Wire.PrefixedInteger.readContinuation]
      cases hread : Wire.PrefixedInteger.readGroups 0 0 rest with
      | incomplete => rfl
      | failed error left => rfl
      | complete value left =>
        have hvalue : value < Bits.values 31 := Wire.PrefixedInteger.readContinuation_lt hread
        have hones : Bits.ones width < Bits.values 8 :=
          Nat.lt_of_lt_of_le (Bits.ones_lt_values width) (Bits.values_mono hwidth)
        have hsum : Bits.ones width + value ≤ Size.largest := by
          have hlargest := largest_eq
          have hshort : Bits.values 31 = 2147483648 := rfl
          have hoctet : Bits.values 8 = 256 := rfl
          omega
        dsimp only
        rw [bind_of_eq_some (sum_of_le hsum)]
        rfl

end HeaderCompression.Checked.IntegerCoding
