import HeaderCompression.Proofs.Checked.Operations
import HeaderCompression.Proofs.Table.RingBuffer

/-!
# Checked rings

A ring reaches its slots by counting back from the head, around the ring. As long as the head and
the slots together are counted by a word, every operation stays in bounds, and every slot that is
looked up or emptied holds an entry.
-/

namespace HeaderCompression.Checked.Ring

open Table

variable {α : Type}

/-! ## Operations -/

/-- The slot of the entry at an index, the newest being at index 1. -/
def slot (ring : RingBuffer α) (index : Nat) : Option Nat := do
  let around ← sum Size.largest ring.head ring.slots.size
  let back ← difference around index
  remainder back ring.slots.size

/-- The entry in a slot, which must not be vacant. -/
def entryAt (ring : RingBuffer α) (slot : Nat) : Option α := do
  let cell ← ring.slots[slot]?
  cell

def get (ring : RingBuffer α) (index : Nat) : Option (Option α) :=
  if index = 0 ∨ ring.count < index then some none
  else do
    let slot ← slot ring index
    let entry ← entryAt ring slot
    return some entry

/-- The slot of the entry that comes to a place when the entries are laid out oldest first. -/
def slotFrom (ring : RingBuffer α) (place : Nat) : Option Nat := do
  let around ← sum Size.largest ring.head ring.slots.size
  let oldest ← difference around ring.count
  let forth ← sum Size.largest oldest place
  remainder forth ring.slots.size

def grow (ring : RingBuffer α) : Option (RingBuffer α) := do
  let doubled ← product Size.largest 2 ring.slots.size
  let cells ← (List.range ring.count).mapM fun place ↦ do
    let slot ← slotFrom ring place
    ring.slots[slot]?
  let vacant := max RingBuffer.initialSlots doubled - ring.count
  return {
    slots := (cells ++ List.replicate vacant none).toArray
    head := ring.count
    count := ring.count }

def fill (ring : RingBuffer α) (entry : α) : Option (RingBuffer α) := do
  let _ ← ring.slots[ring.head]?
  let next ← sum Size.largest ring.head 1
  let head ← remainder next ring.slots.size
  let count ← sum Size.largest ring.count 1
  return { slots := ring.slots.setIfInBounds ring.head (some entry), head, count }

def push (ring : RingBuffer α) (entry : α) : Option (RingBuffer α) :=
  if ring.count = ring.slots.size then do
    let grown ← grow ring
    fill grown entry
  else fill ring entry

def popOldest (ring : RingBuffer α) : Option (Option (α × RingBuffer α)) :=
  if ring.count = 0 then some none
  else do
    let slot ← slot ring ring.count
    let entry ← entryAt ring slot
    let count ← difference ring.count 1
    return some (entry, { ring with slots := ring.slots.setIfInBounds slot none, count })

/-! ## Results -/

variable {ring : RingBuffer α} {entries : List α}

/-- Sums of places in the ring are words. -/
def InWords (ring : RingBuffer α) : Prop :=
  4 * ring.slots.size + 8 ≤ Size.largest

theorem head_lt_size (hring : ring.Holds entries) (hcount : 0 < ring.count) :
    ring.head < ring.slots.size := by
  have hle := hring.count_le
  exact hring.head_lt (by omega)

theorem slot_eq (hring : ring.Holds entries) (hwords : InWords ring) {index : Nat}
    (hpos : 0 < index) (hindex : index ≤ ring.count) :
    slot ring index = some (ring.slotOf (index - 1)) := by
  have hhead := head_lt_size hring (by omega)
  have hcount := hring.count_le
  unfold InWords at hwords
  have hsucc : index - 1 + 1 = index := by omega
  rw [slot, bind_of_eq_some (sum_of_le (by omega)), bind_of_eq_some (difference_of_le (by omega)),
    remainder_of_pos (by omega), RingBuffer.slotOf, hsucc]

theorem entryAt_eq {age : Nat} (hage : age < ring.count) :
    entryAt ring (ring.slotOf age) = ring.get? age := by
  rw [RingBuffer.get?, if_pos hage]
  unfold entryAt
  cases ring.slots[ring.slotOf age]? <;> rfl

theorem exists_get? (hring : ring.Holds entries) {age : Nat} (hage : age < ring.count) :
    ∃ entry, ring.get? age = some entry := by
  have hlength : age < entries.length := by rwa [← hring.count_eq]
  exact ⟨entries[age], (hring.get?_eq age).trans (List.getElem?_eq_getElem hlength)⟩

theorem get_eq (hring : ring.Holds entries) (hwords : InWords ring) (index : Nat) :
    get ring index = some (if index = 0 then none else ring.get? (index - 1)) := by
  unfold get
  by_cases hzero : index = 0
  · rw [if_pos (.inl hzero), if_pos hzero]
  · rw [if_neg hzero]
    by_cases hbeyond : ring.count < index
    · have hnone : ring.get? (index - 1) = none := if_neg (by omega)
      rw [if_pos (.inr hbeyond), hnone]
    · obtain ⟨entry, hentry⟩ := exists_get? hring (show index - 1 < ring.count by omega)
      rw [if_neg (by omega), bind_of_eq_some (slot_eq hring hwords (by omega) (by omega)),
        entryAt_eq (by omega), hentry]
      rfl

theorem popOldest_eq (hring : ring.Holds entries) (hwords : InWords ring) :
    popOldest ring = some ring.popOldest? := by
  unfold popOldest
  by_cases hzero : ring.count = 0
  · have hnone : ring.get? (ring.count - 1) = none := if_neg (by omega)
    rw [if_pos hzero, RingBuffer.popOldest?, hnone, Option.map_none]
  · obtain ⟨entry, hentry⟩ := exists_get? hring (show ring.count - 1 < ring.count by omega)
    rw [if_neg hzero, bind_of_eq_some (slot_eq hring hwords (by omega) (Nat.le_refl _)),
      entryAt_eq (by omega), bind_of_eq_some hentry, bind_of_eq_some (difference_of_le (by omega)),
      RingBuffer.popOldest?, hentry]
    rfl

theorem fill_eq (hsize : ring.slots.size < Size.largest) (hhead : ring.head < ring.slots.size)
    (hcount : ring.count ≤ ring.slots.size) (entry : α) :
    fill ring entry = some (ring.fill entry) := by
  rw [fill, bind_of_eq_some (Array.getElem?_eq_getElem hhead),
    bind_of_eq_some (sum_of_le (by omega)), bind_of_eq_some (remainder_of_pos (by omega)),
    bind_of_eq_some (sum_of_le (by omega))]
  rfl

theorem slotFrom_eq (hring : ring.Holds entries) (hwords : InWords ring) {place : Nat}
    (hplace : place < ring.count) :
    slotFrom ring place = some (ring.slotOf (ring.count - 1 - place)) := by
  have hhead := head_lt_size hring (by omega)
  have hcount := hring.count_le
  unfold InWords at hwords
  have hback : ring.head + ring.slots.size - ring.count + place =
      ring.head + ring.slots.size - (ring.count - 1 - place + 1) := by omega
  rw [slotFrom, bind_of_eq_some (sum_of_le (by omega)),
    bind_of_eq_some (difference_of_le (by omega)), bind_of_eq_some (sum_of_le (by omega)),
    remainder_of_pos (by omega), RingBuffer.slotOf, hback]

/-- The cell of an entry is its slot, and no other cell is moved. -/
theorem getElem?_slotOf (hring : ring.Holds entries) {age : Nat} (hage : age < ring.count) :
    ring.slots[ring.slotOf age]? = some (ring.get? age) := by
  have hcount := hring.count_le
  have hslot : ring.slotOf age < ring.slots.size := Nat.mod_lt _ (by omega)
  rw [RingBuffer.get?, if_pos hage, Array.getElem?_eq_getElem hslot, Option.join_some]

theorem mapM_of_forall_eq {β : Type} {lookup : Nat → Option β} {result : Nat → β}
    {places : List Nat} (hlookup : ∀ place ∈ places, lookup place = some (result place)) :
    places.mapM lookup = some (places.map result) := by
  induction places with
  | nil => rfl
  | cons place places hplaces =>
    have hothers := hplaces fun other hother ↦ hlookup other (List.mem_cons_of_mem place hother)
    rw [List.mapM_cons, hlookup place List.mem_cons_self, hothers]
    rfl

theorem toList_slots_grow (hcount : ring.count ≤ ring.slots.size) :
    ring.grow.slots.toList =
      (List.range ring.count).map (fun place ↦ ring.get? (ring.count - 1 - place)) ++
        List.replicate (max RingBuffer.initialSlots (2 * ring.slots.size) - ring.count) none := by
  rw [RingBuffer.grow, Array.toList_ofFn]
  apply List.ext_getElem
  · rw [List.length_ofFn, List.length_append, List.length_map, List.length_range,
      List.length_replicate]
    omega
  · intro place hplace hother
    rw [List.getElem_ofFn]
    by_cases hoccupied : place < ring.count
    · have hleft : place < ((List.range ring.count).map
          fun place ↦ ring.get? (ring.count - 1 - place)).length := by simpa using hoccupied
      rw [if_pos hoccupied, List.getElem_append_left hleft, List.getElem_map, List.getElem_range]
    · have hright : ((List.range ring.count).map
          fun place ↦ ring.get? (ring.count - 1 - place)).length ≤ place := by
        simpa using Nat.le_of_not_lt hoccupied
      rw [if_neg hoccupied, List.getElem_append_right hright, List.getElem_replicate]

theorem grow_eq (hring : ring.Holds entries) (hwords : InWords ring) :
    grow ring = some ring.grow := by
  have hcells : ∀ place ∈ List.range ring.count,
      (slotFrom ring place >>= fun slot ↦ ring.slots[slot]?) =
        some (ring.get? (ring.count - 1 - place)) := by
    intro place hmem
    have hplace := List.mem_range.1 hmem
    rw [bind_of_eq_some (slotFrom_eq hring hwords hplace)]
    exact getElem?_slotOf hring (by omega)
  unfold InWords at hwords
  rw [grow, bind_of_eq_some (product_of_le (by omega)), bind_of_eq_some (mapM_of_forall_eq hcells)]
  dsimp only
  rw [← toList_slots_grow hring.count_le]
  rfl

theorem push_eq (hring : ring.Holds entries) (hwords : InWords ring) (entry : α) :
    push ring entry = some (ring.push entry) := by
  have hcount := hring.count_le
  unfold push RingBuffer.push
  by_cases hfull : ring.count = ring.slots.size
  · have hgrown : ring.count < ring.grow.slots.size := RingBuffer.count_lt_size_grow hcount
    have hsize : ring.grow.slots.size = max RingBuffer.initialSlots (2 * ring.slots.size) := by
      rw [RingBuffer.grow, Array.size_ofFn]
    rw [if_pos hfull, if_pos hfull, bind_of_eq_some (grow_eq hring hwords)]
    have hlargest := largest_eq
    unfold InWords at hwords
    unfold RingBuffer.initialSlots at hsize
    exact fill_eq (by omega) hgrown (Nat.le_of_lt hgrown) entry
  · unfold InWords at hwords
    rw [if_neg hfull, if_neg hfull]
    exact fill_eq (by omega) (hring.head_lt (by omega)) hcount entry

end HeaderCompression.Checked.Ring
