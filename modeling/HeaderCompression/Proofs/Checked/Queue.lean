import HeaderCompression.Proofs.Checked.Operations
import HeaderCompression.Proofs.Octets.Queue
import HeaderCompression.Proofs.Wire.PrefixedInteger

/-!
# Checked queues

A queue is read at a position that never passes its end, and its mark never passes the position. A
continuation is read octet by octet with the mark set at its beginning, so that the octets can be
given back when it turns out to be incomplete. Its groups are shifted by at most 28 places.
-/

namespace HeaderCompression.Checked.Input

open Octets Wire

/-! ## Operations -/

def available (queue : Queue) : Option Nat :=
  difference queue.storage.size queue.position

def append (queue : Queue) (octets : Octets) : Option Queue := do
  let kept ← range queue.storage queue.mark queue.storage.size
  let position ← difference queue.position queue.mark
  return { storage := kept ++ octets.toArray, position, mark := 0 }

def readOctet (queue : Queue) : Option (Option UInt8 × Queue) :=
  match queue.storage[queue.position]? with
  | none => some (none, queue)
  | some octet => do
    let position ← sum Size.largest queue.position 1
    return (some octet, { queue with position })

def readOctets (queue : Queue) (count : Nat) : Option (Option Octets × Queue) := do
  let arrived ← available queue
  if arrived < count then return (none, queue)
  else
    let position ← sum Size.largest queue.position count
    let octets ← range queue.storage queue.position position
    return (some octets.toList, { queue with position })

def skip (queue : Queue) (count : Nat) : Option (Nat × Queue) := do
  let arrived ← available queue
  let position ← sum Size.largest queue.position (min count arrived)
  return (min count arrived, { queue with position })

/-- Read groups that are shifted by `shift` places and more. There are at most five groups in all,
and after `rounds` more of them there is no result. -/
def readGroups : (rounds shift value : Nat) → Queue →
    Option (Except DecodingError (Option Nat) × Queue)
  | 0, _, _, _ => none
  | rounds + 1, shift, value, queue => do
    match ← readOctet queue with
    | (none, queue) => return (.ok none, queue)
    | (some octet, queue) =>
      if shift = 28 ∧ 8 ≤ octet.toNat then return (.error .integerOverflow, queue)
      else
        let group ← shiftLeft 64 (octet.toNat % 128) shift
        if octet.toNat < 128 then return (.ok (some (value ||| group)), queue)
        else
          let further ← sum largestShort shift 7
          readGroups rounds further (value ||| group) queue

def readContinuation (queue : Queue) : Option (Except DecodingError (Option Nat) × Queue) := do
  match ← readGroups 5 0 0 queue.setMark with
  | (.ok none, queue) => return (.ok none, queue.rewind)
  | read => return read

/-! ## Queues in order -/

/-- The position is within the queue, and the queue is short enough for its places to be words. -/
structure InOrder (queue : Queue) : Prop where
  position_le : queue.position ≤ queue.storage.size
  size_lt : queue.storage.size < Bits.values 60

/-- A reader of the queue has come to `after`, where `rest` is left, whatever the marks. -/
structure Leaves (queue : Queue) (rest : Octets) (after : Queue) : Prop where
  suffix : rest <:+ queue.unread
  setMark_eq : after.setMark = (queue.leave rest).setMark

variable {queue after : Queue} {rest others : Octets}

theorem InOrder.length_unread_lt (horder : InOrder queue) :
    queue.unread.length < Bits.values 60 := by
  rw [Queue.length_unread]
  exact Nat.lt_of_le_of_lt (Nat.sub_le _ _) horder.size_lt

theorem Leaves.storage_eq (hleaves : Leaves queue rest after) : after.storage = queue.storage := by
  have hstorage := congrArg Queue.storage hleaves.setMark_eq
  exact hstorage

theorem Leaves.position_eq (hleaves : Leaves queue rest after) :
    after.position = queue.storage.size - rest.length := by
  have hposition := congrArg Queue.position hleaves.setMark_eq
  exact hposition

theorem Leaves.unread_eq (hleaves : Leaves queue rest after) : after.unread = rest := by
  rw [← Queue.unread_setMark, hleaves.setMark_eq, Queue.unread_setMark,
    Queue.unread_leave hleaves.suffix]

theorem Leaves.inOrder (hleaves : Leaves queue rest after) (horder : InOrder queue) :
    InOrder after where
  position_le := by
    rw [hleaves.position_eq, hleaves.storage_eq]
    exact Nat.sub_le _ _
  size_lt := by
    rw [hleaves.storage_eq]
    exact horder.size_lt

theorem Leaves.trans {last : Queue} (hleaves : Leaves queue rest after)
    (hlast : Leaves after others last) : Leaves queue others last where
  suffix := by
    have hsuffix := hlast.suffix
    rw [hleaves.unread_eq] at hsuffix
    exact hsuffix.trans hleaves.suffix
  setMark_eq := by
    rw [hlast.setMark_eq, Queue.leave, Queue.leave, hleaves.storage_eq]
    rfl

theorem leaves_leave (hsuffix : rest <:+ queue.unread) : Leaves queue rest (queue.leave rest) :=
  ⟨hsuffix, rfl⟩

theorem leave_unread (horder : InOrder queue) : queue.leave queue.unread = queue := by
  have hposition := horder.position_le
  rw [Queue.leave, Queue.length_unread, Queue.available, Nat.sub_sub_self hposition]

theorem leaves_unread (horder : InOrder queue) : Leaves queue queue.unread queue :=
  ⟨List.suffix_refl _, by rw [leave_unread horder]⟩

/-! ## Results -/

theorem available_eq (horder : InOrder queue) : available queue = some queue.available :=
  difference_of_le horder.position_le

theorem append_eq (horder : InOrder queue) (hmarked : queue.IsMarked) (octets : Octets) :
    append queue octets = some (queue.append octets) := by
  have hposition := horder.position_le
  have hmark : queue.mark = queue.position := hmarked
  rw [append, bind_of_eq_some (range_of_le (by omega) (Nat.le_refl _)),
    bind_of_eq_some (difference_of_le (by omega))]
  rfl

/-- Where `rest` is left after `count` octets. -/
theorem InOrder.position_add_eq (horder : InOrder queue) {count : Nat}
    (hlength : count + rest.length = queue.unread.length) :
    queue.position + count = queue.storage.size - rest.length := by
  have hposition := horder.position_le
  rw [Queue.length_unread, Queue.available] at hlength
  omega

theorem InOrder.sum_position (horder : InOrder queue) {count : Nat}
    (hlength : count + rest.length = queue.unread.length) :
    sum Size.largest queue.position count = some (queue.storage.size - rest.length) := by
  have hlargest := largest_eq
  have hsixty := values_sixty
  have hsize := horder.size_lt
  have hnext := horder.position_add_eq hlength
  rw [sum_of_le (by omega), hnext]

theorem readOctet_nil (hunread : queue.unread = []) : readOctet queue = some (none, queue) := by
  rw [readOctet, Queue.getElem?_position, hunread]
  rfl

theorem readOctet_cons (horder : InOrder queue) {octet : UInt8}
    (hunread : queue.unread = octet :: rest) :
    readOctet queue = some (some octet, queue.leave rest) := by
  have hlength : 1 + rest.length = queue.unread.length := by
    rw [hunread, List.length_cons, Nat.add_comm]
  rw [readOctet, Queue.getElem?_position, hunread, List.head?_cons]
  dsimp only
  rw [bind_of_eq_some (horder.sum_position hlength)]
  rfl

theorem readOctets_of_lt (horder : InOrder queue) {count : Nat}
    (hcount : queue.unread.length < count) : readOctets queue count = some (none, queue) := by
  rw [Queue.length_unread] at hcount
  rw [readOctets, bind_of_eq_some (available_eq horder), if_pos hcount]
  rfl

theorem readOctets_of_le (horder : InOrder queue) {count : Nat}
    (hcount : count ≤ queue.unread.length) :
    readOctets queue count =
      some (some (queue.unread.take count), queue.leave (queue.unread.drop count)) := by
  have hlength : count + (queue.unread.drop count).length = queue.unread.length := by
    rw [List.length_drop, Nat.add_sub_cancel' hcount]
  have hnext := horder.position_add_eq hlength
  have hrange : range queue.storage queue.position (queue.position + count) =
      some (queue.storage.extract queue.position (queue.position + count)) :=
    range_of_le (Nat.le_add_right _ _) (Nat.le_trans (Nat.le_of_eq hnext) (Nat.sub_le _ _))
  rw [Queue.length_unread] at hcount
  rw [readOctets, bind_of_eq_some (available_eq horder), if_neg (Nat.not_lt_of_le hcount),
    bind_of_eq_some (horder.sum_position hlength), ← hnext, bind_of_eq_some hrange,
    Queue.toList_extract_position, hnext]
  rfl

theorem skip_eq (horder : InOrder queue) (count : Nat) :
    skip queue count =
      some (min count queue.unread.length, queue.leave (queue.unread.drop count)) := by
  have hlength : min count queue.available + (queue.unread.drop count).length =
      queue.unread.length := by
    rw [List.length_drop, Queue.length_unread]
    omega
  rw [skip, bind_of_eq_some (available_eq horder), bind_of_eq_some (horder.sum_position hlength),
    Queue.length_unread]
  rfl

/-! ## Continuations -/

theorem readGroups_eq {rounds group value : Nat} (horder : InOrder queue)
    (hrounds : rounds + group = 5) (hpos : 0 < rounds) (hvalue : value < Bits.values (7 * group)) :
    readGroups rounds (7 * group) value queue =
      some (match PrefixedInteger.readGroups group value queue.unread with
        | .complete value rest => (.ok (some value), queue.leave rest)
        | .incomplete => (.ok none, queue.leave [])
        | .failed error rest => (.error error, queue.leave rest)) := by
  induction rounds generalizing group value queue with
  | zero => exact absurd hpos (Nat.lt_irrefl 0)
  | succ rounds hrec =>
    rw [readGroups]
    cases hunread : queue.unread with
    | nil =>
      have hself : queue.leave [] = queue := by rw [← hunread, leave_unread horder]
      rw [bind_of_eq_some (readOctet_nil hunread), PrefixedInteger.readGroups, hself]
      rfl
    | cons octet rest =>
      have hshift : 7 * group = 28 ↔ group = 4 := by omega
      rw [bind_of_eq_some (readOctet_cons horder hunread), PrefixedInteger.readGroups]
      dsimp only
      simp only [hshift]
      by_cases hoverflow : group = 4 ∧ 8 ≤ octet.toNat
      · rw [if_pos hoverflow, if_pos hoverflow]
        rfl
      · have hgroup : octet.toNat % 128 * Bits.values (7 * group) < Bits.values 64 := by
          have hlt := PrefixedInteger.add_group_lt octet.toNat hvalue
          have hwide : Bits.values (7 * (group + 1)) ≤ Bits.values 64 :=
            Bits.values_mono (by omega)
          omega
        rw [if_neg hoverflow, if_neg hoverflow, bind_of_eq_some (shiftLeft_of_lt (by omega)),
          Nat.mod_eq_of_lt hgroup, or_mul_values _ hvalue]
        by_cases hlast : octet.toNat < 128
        · rw [if_pos hlast, if_pos hlast]
          rfl
        · have hsuffix : rest <:+ queue.unread := by
            rw [hunread]
            exact List.suffix_cons octet rest
          have hleaves := leaves_leave hsuffix
          have hnext : 7 * group + 7 = 7 * (group + 1) := by omega
          have hshort : largestShort = 4294967295 := rfl
          rw [if_neg hlast, if_neg hlast, bind_of_eq_some (sum_of_le (by omega)), hnext,
            hrec (hleaves.inOrder horder) (by omega) (by omega)
              (PrefixedInteger.add_group_lt octet.toNat hvalue), hleaves.unread_eq]
          rfl

theorem readContinuation_eq (horder : InOrder queue) :
    readContinuation queue = some (queue.read PrefixedInteger.readContinuation) := by
  have hmarked : InOrder queue.setMark := ⟨horder.position_le, horder.size_lt⟩
  have hrounds : 5 + 0 = 5 := rfl
  have hgroups := readGroups_eq hmarked hrounds (by omega) (Bits.values_pos (7 * 0))
  rw [readContinuation, bind_of_eq_some hgroups, Queue.read, PrefixedInteger.readContinuation,
    Queue.unread_setMark]
  cases PrefixedInteger.readGroups 0 0 queue.unread <;> rfl

end HeaderCompression.Checked.Input
