import HeaderCompression.Field
import HeaderCompression.Table.EvictionPolicy

/-!
# Tables as lists

A dynamic table is its list of entries, newest first, with a capacity and an eviction policy. Here
the operations are written on that list: entries leave at the end of it, in the rounds of the
policy, and a new entry goes in front.
-/

namespace HeaderCompression.Table

/-- The sizes of the entries taken together. -/
def totalSize : List Field → Nat
  | [] => 0
  | entry :: entries => entry.size + totalSize entries

structure ListTable where
  entries : List Field
  capacity : Nat
  policy : EvictionPolicy

namespace ListTable

/-- The entry at an index, the newest being at index 1. -/
def get? (table : ListTable) (index : Nat) : Option Field :=
  if index = 0 then none else table.entries[index - 1]?

/-- The entries that are left when rounds have made room for one more of size `incoming`. -/
def makeRoom (policy : EvictionPolicy) (incoming capacity : Nat) (entries : List Field) :
    List Field :=
  if capacity < totalSize entries + incoming ∧ entries ≠ [] then
    makeRoom policy incoming capacity
      (entries.take (entries.length - policy.roundLength (totalSize entries) incoming capacity))
  else entries
termination_by entries.length
decreasing_by
  rename_i hround
  have hpos : 0 < policy.roundLength (totalSize entries) incoming capacity :=
    EvictionPolicy.roundLength_pos (EvictionPolicy.overflows_iff.2 hround.1)
  have hlength := List.length_pos_iff.2 hround.2
  rw [List.length_take]
  omega

theorem makeRoom_nil (policy : EvictionPolicy) (incoming capacity : Nat) :
    makeRoom policy incoming capacity [] = [] := by
  rw [makeRoom, if_neg fun hround ↦ hround.2 rfl]

theorem makeRoom_of_fits {policy : EvictionPolicy} {incoming capacity : Nat} {entries : List Field}
    (hfits : ¬capacity < totalSize entries + incoming) :
    makeRoom policy incoming capacity entries = entries := by
  rw [makeRoom, if_neg fun hround ↦ hfits hround.1]

theorem makeRoom_round {policy : EvictionPolicy} {incoming capacity : Nat} {entries : List Field}
    (hfull : capacity < totalSize entries + incoming) :
    makeRoom policy incoming capacity entries =
      makeRoom policy incoming capacity
        (entries.take
          (entries.length - policy.roundLength (totalSize entries) incoming capacity)) := by
  by_cases hnil : entries = []
  · rw [hnil, List.take_nil]
  · rw [makeRoom, if_pos ⟨hfull, hnil⟩]

def clear (table : ListTable) : ListTable :=
  { table with entries := [] }

/-- A field larger than the whole capacity empties the table and is not inserted. -/
def add (table : ListTable) (field : Field) : ListTable :=
  if table.capacity < field.size then table.clear
  else
    { table with
      entries := field :: makeRoom table.policy field.size table.capacity table.entries }

/-- Whatever the policy, entries leave one at a time. -/
def setCapacity (table : ListTable) (capacity : Nat) : ListTable :=
  { table with capacity, entries := makeRoom .fifo 0 capacity table.entries }

def setPolicy (table : ListTable) (policy : EvictionPolicy) : ListTable :=
  { table with policy }

theorem capacity_add (table : ListTable) (field : Field) :
    (table.add field).capacity = table.capacity := by
  unfold add
  split <;> rfl

/-! ## Sizes -/

/-- The entries fit in the capacity. -/
def Fits (table : ListTable) : Prop :=
  totalSize table.entries ≤ table.capacity

theorem totalSize_makeRoom_add_le (policy : EvictionPolicy) {incoming capacity : Nat}
    (hincoming : incoming ≤ capacity) (entries : List Field) :
    totalSize (makeRoom policy incoming capacity entries) + incoming ≤ capacity := by
  fun_induction makeRoom policy incoming capacity entries with
  | case1 entries hround hrest => exact hrest
  | case2 entries hfits =>
    by_cases hnil : entries = []
    · subst hnil
      rwa [totalSize, Nat.zero_add]
    · have hle : ¬capacity < totalSize entries + incoming := fun hlt ↦ hfits ⟨hlt, hnil⟩
      omega

theorem fits_clear (table : ListTable) : table.clear.Fits :=
  Nat.zero_le table.capacity

theorem fits_add (table : ListTable) (field : Field) : (table.add field).Fits := by
  unfold add
  split
  · exact table.fits_clear
  · rename_i hsize
    have hroom := totalSize_makeRoom_add_le table.policy (Nat.le_of_not_lt hsize) table.entries
    rw [Nat.add_comm] at hroom
    exact hroom

theorem fits_setCapacity (table : ListTable) (capacity : Nat) :
    (table.setCapacity capacity).Fits :=
  totalSize_makeRoom_add_le .fifo (Nat.zero_le capacity) table.entries

/-- Every entry costs more than its overhead, which bounds the number of entries. -/
theorem overhead_mul_length_le (entries : List Field) :
    Field.overhead * entries.length ≤ totalSize entries := by
  induction entries with
  | nil => exact Nat.le_refl 0
  | cons entry entries hentries =>
    have hentry : Field.overhead ≤ entry.size := Nat.le_add_left Field.overhead entry.length
    rw [List.length_cons, totalSize, Nat.mul_succ]
    omega

end ListTable

end HeaderCompression.Table
