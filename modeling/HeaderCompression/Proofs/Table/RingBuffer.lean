import HeaderCompression.Table.RingBuffer

/-!
# Rings as lists

A ring holds a list of entries, newest first, if looking an entry up by its age looks it up in that
list. Insertion puts an entry in front of the list, removal takes the last one away, and growing
changes nothing.
-/

namespace HeaderCompression.Table.RingBuffer

variable {α : Type} {ring : RingBuffer α} {entries : List α}

/-- The ring holds these entries, newest first. -/
structure Holds (ring : RingBuffer α) (entries : List α) : Prop where
  count_eq : ring.count = entries.length
  count_le : ring.count ≤ ring.slots.size
  head_lt : 0 < ring.slots.size → ring.head < ring.slots.size
  get?_eq (age : Nat) : ring.get? age = entries[age]?

/-! ## Slots -/

/-- Counting back from the head goes around the ring at most once. -/
theorem slotOf_eq {age : Nat} (hhead : ring.head < ring.slots.size) (hage : age < ring.slots.size) :
    ring.slotOf age =
      if age < ring.head then ring.head - (age + 1)
      else ring.head + ring.slots.size - (age + 1) := by
  unfold slotOf
  split
  · have hsum : ring.head + ring.slots.size - (age + 1) =
        ring.head - (age + 1) + ring.slots.size := by omega
    rw [hsum, Nat.add_mod_right]
    exact Nat.mod_eq_of_lt (by omega)
  · exact Nat.mod_eq_of_lt (by omega)

theorem slotOf_ne {first second : Nat} (hhead : ring.head < ring.slots.size)
    (hfirst : first < ring.slots.size) (hsecond : second < ring.slots.size) (hne : first ≠ second) :
    ring.slotOf first ≠ ring.slotOf second := by
  rw [slotOf_eq hhead hfirst, slotOf_eq hhead hsecond]
  split <;> split <;> omega

theorem succ_mod_eq {slot size : Nat} (hslot : slot < size) :
    (slot + 1) % size = if slot + 1 = size then 0 else slot + 1 := by
  split
  · rename_i hlast
    rw [hlast, Nat.mod_self]
  · exact Nat.mod_eq_of_lt (by omega)

theorem size_fill (entry : α) : (ring.fill entry).slots.size = ring.slots.size := by
  simp [fill]

theorem head_fill_lt (entry : α) (hhead : ring.head < ring.slots.size) :
    (ring.fill entry).head < (ring.fill entry).slots.size := by
  rw [size_fill]
  exact Nat.mod_lt (ring.head + 1) (by omega)

theorem slotOf_fill_zero (entry : α) (hhead : ring.head < ring.slots.size) :
    (ring.fill entry).slotOf 0 = ring.head := by
  have hsize : 0 < ring.slots.size := by omega
  have hnext : (ring.fill entry).head =
      if ring.head + 1 = ring.slots.size then 0 else ring.head + 1 := succ_mod_eq hhead
  rw [slotOf_eq (head_fill_lt entry hhead) (by rw [size_fill]; exact hsize), size_fill, hnext]
  split <;> split <;> omega

theorem slotOf_fill_succ (entry : α) {age : Nat} (hhead : ring.head < ring.slots.size)
    (hage : age + 1 < ring.slots.size) : (ring.fill entry).slotOf (age + 1) = ring.slotOf age := by
  have hnext : (ring.fill entry).head =
      if ring.head + 1 = ring.slots.size then 0 else ring.head + 1 := succ_mod_eq hhead
  rw [slotOf_eq (head_fill_lt entry hhead) (by rw [size_fill]; exact hage), size_fill, hnext,
    slotOf_eq hhead (by omega)]
  split <;> split <;> split <;> omega

theorem slotOf_ne_head {age : Nat} (hhead : ring.head < ring.slots.size)
    (hage : age + 1 < ring.slots.size) : ring.slotOf age ≠ ring.head := by
  rw [slotOf_eq hhead (by omega)]
  split <;> omega

/-! ## Operations -/

theorem holds_empty : (empty : RingBuffer α).Holds [] where
  count_eq := rfl
  count_le := Nat.le_refl 0
  head_lt hsize := hsize
  get?_eq age := by simp [get?, empty]

theorem Holds.get?_eq_join (hring : ring.Holds entries) {age : Nat} (hage : age < entries.length) :
    ring.slots[ring.slotOf age]?.join = entries[age]? := by
  rw [← hring.get?_eq age, get?, if_pos (by rw [hring.count_eq]; exact hage)]

theorem Holds.fill (hring : ring.Holds entries) (hroom : ring.count < ring.slots.size) (entry : α) :
    (ring.fill entry).Holds (entry :: entries) := by
  have hhead : ring.head < ring.slots.size := hring.head_lt (by omega)
  constructor
  · exact congrArg (· + 1) hring.count_eq
  · rw [size_fill]
    exact hroom
  · exact fun _ ↦ head_fill_lt entry hhead
  · intro age
    by_cases hage : age < ring.count + 1
    · have hcount : age < (ring.fill entry).count := hage
      rw [get?, if_pos hcount]
      cases age with
      | zero =>
        rw [slotOf_fill_zero entry hhead]
        simp [RingBuffer.fill, hhead]
      | succ age =>
        have hother : ring.head ≠ ring.slotOf age := (slotOf_ne_head hhead (by omega)).symm
        rw [slotOf_fill_succ entry hhead (by omega), RingBuffer.fill,
          Array.getElem?_setIfInBounds_ne hother,
          hring.get?_eq_join (by rw [← hring.count_eq]; omega), List.getElem?_cons_succ]
    · have hcount : ¬age < (ring.fill entry).count := hage
      have hlength : (entry :: entries).length ≤ age := by
        rw [List.length_cons, ← hring.count_eq]
        omega
      rw [get?, if_neg hcount, List.getElem?_eq_none hlength]

theorem count_lt_size_grow (hcount : ring.count ≤ ring.slots.size) :
    ring.count < ring.grow.slots.size := by
  have hsize : ring.grow.slots.size = max 8 (2 * ring.slots.size) := by
    simp [grow, initialSlots]
  omega

theorem get?_grow {age : Nat} (hcount : ring.count ≤ ring.slots.size) (hage : age < ring.count) :
    ring.grow.get? age = ring.get? age := by
  have hhead : ring.grow.head < ring.grow.slots.size := count_lt_size_grow hcount
  have hgrown : ring.grow.head = ring.count := rfl
  have hslot : ring.grow.slotOf age = ring.count - (age + 1) := by
    rw [slotOf_eq hhead (by omega), if_pos (by omega)]
    rfl
  have hbound : ring.count - (age + 1) < ring.grow.slots.size := by omega
  have hlaid : ring.count - 1 - (ring.count - (age + 1)) = age := by omega
  rw [get?, if_pos (by exact hage), hslot, Array.getElem?_eq_getElem hbound, Option.join_some]
  simp only [grow, Array.getElem_ofFn, hlaid]
  exact if_pos (by omega)

theorem Holds.grow (hring : ring.Holds entries) : ring.grow.Holds entries where
  count_eq := hring.count_eq
  count_le := Nat.le_of_lt (count_lt_size_grow hring.count_le)
  head_lt _ := count_lt_size_grow hring.count_le
  get?_eq age := by
    by_cases hage : age < ring.count
    · rw [get?_grow hring.count_le hage]
      exact hring.get?_eq age
    · have hnone : ring.grow.get? age = none := if_neg (by exact hage)
      rw [hnone, List.getElem?_eq_none (by rw [← hring.count_eq]; omega)]

theorem Holds.push (hring : ring.Holds entries) (entry : α) :
    (ring.push entry).Holds (entry :: entries) := by
  unfold RingBuffer.push
  by_cases hfull : ring.count = ring.slots.size
  · rw [if_pos hfull]
    exact hring.grow.fill (count_lt_size_grow hring.count_le) entry
  · have hcount := hring.count_le
    rw [if_neg hfull]
    exact hring.fill (by omega) entry

theorem Holds.popOldest?_nil (hring : ring.Holds []) : ring.popOldest? = none := by
  rw [popOldest?, hring.get?_eq, List.getElem?_nil, Option.map_none]

/-- The entry that leaves is the last one, and the others stay where they are. -/
theorem Holds.popOldest?_append {oldest : α} (hring : ring.Holds (entries ++ [oldest])) :
    ∃ rest, ring.popOldest? = some (oldest, rest) ∧ rest.Holds entries := by
  have hcount : ring.count = entries.length + 1 := by
    rw [hring.count_eq, List.length_append, List.length_singleton]
  have hsize := hring.count_le
  have hhead : ring.head < ring.slots.size := hring.head_lt (by omega)
  have hpredecessor : ring.count - 1 = entries.length := by omega
  have holdest : ring.get? (ring.count - 1) = some oldest := by
    rw [hring.get?_eq, hpredecessor, List.getElem?_concat_length]
  refine ⟨_, by rw [popOldest?, holdest, Option.map_some], ?_⟩
  constructor
  · exact hpredecessor
  · rw [Array.size_setIfInBounds]
    exact Nat.le_trans (Nat.sub_le ring.count 1) hsize
  · intro _
    rw [Array.size_setIfInBounds]
    exact hhead
  · intro age
    by_cases hage : age < entries.length
    · have hslot : ring.slotOf (ring.count - 1) ≠ ring.slotOf age :=
        slotOf_ne hhead (by omega) (by omega) (by omega)
      have hjoin : ring.slots[ring.slotOf age]?.join = (entries ++ [oldest])[age]? :=
        hring.get?_eq_join (by rw [← hring.count_eq]; omega)
      rw [get?, if_pos (by rw [hpredecessor]; exact hage)]
      simp only [slotOf, Array.size_setIfInBounds] at hslot hjoin ⊢
      rw [Array.getElem?_setIfInBounds_ne hslot, hjoin, List.getElem?_append_left hage]
    · rw [get?, if_neg (by rw [hpredecessor]; exact hage), List.getElem?_eq_none (by omega)]

theorem holds_clear (ring : RingBuffer α) : ring.clear.Holds [] where
  count_eq := rfl
  count_le := Nat.zero_le ring.clear.slots.size
  head_lt hsize := hsize
  get?_eq age := by simp [get?, clear]

/-! ## The list itself -/

theorem filterMap_range_eq {lookup : Nat → Option α}
    (hlookup : ∀ age < entries.length, lookup age = entries[age]?) :
    (List.range entries.length).filterMap lookup = entries := by
  induction entries generalizing lookup with
  | nil => rfl
  | cons entry entries hentries =>
    have hrest : ∀ age < entries.length, (lookup ∘ Nat.succ) age = entries[age]? := by
      intro age hage
      have hnext := hlookup (age + 1) (by rw [List.length_cons]; omega)
      rwa [List.getElem?_cons_succ] at hnext
    rw [List.length_cons, List.range_succ_eq_map, List.filterMap_cons, hlookup 0 (by simp),
      List.getElem?_cons_zero, List.filterMap_map, hentries hrest]

theorem Holds.toList_eq (hring : ring.Holds entries) : ring.toList = entries := by
  unfold RingBuffer.toList
  rw [hring.count_eq]
  exact filterMap_range_eq fun age _ ↦ hring.get?_eq age

end HeaderCompression.Table.RingBuffer
