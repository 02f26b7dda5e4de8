import HeaderCompression.Proofs.Checked.RingBuffer
import HeaderCompression.Proofs.Table.Refinement

/-!
# Checked tables

The size of a table is the sum of the sizes of its entries, so an entry that leaves can always be
subtracted. Sizes and capacities below half a word leave room for one more entry, and an entry that
is tracked was inserted before, so that its index is never negative.
-/

namespace HeaderCompression.Checked.Table

open HeaderCompression.Table

/-! ## Operations -/

def fieldSize (field : Field) : Option Nat := do
  let length ← sum Size.largest field.name.length field.value.length
  sum Size.largest length Field.overhead

def get (table : DynamicTable) (index : Nat) : Option (Option Field) :=
  Ring.get table.ring index

/-- The index of an insertion number. -/
def indexOf (table : DynamicTable) : Option Nat → Option (Option Nat)
  | none => some none
  | some number => do
    let index ← difference table.inserted number
    return some index

def findName (table : DynamicTable) (name : Octets) : Option (Option Nat) :=
  indexOf table (table.latestByName.get? name)

def find (table : DynamicTable) (field : Field) : Option (Option Nat) :=
  indexOf table (table.latestByField.get? field)

/-- Take out the oldest entry. -/
def remove (table : DynamicTable) : Option (Option (Field × DynamicTable)) := do
  match ← Ring.popOldest table.ring with
  | none => return none
  | some popped =>
    let number ← difference table.inserted table.length
    let leaving ← fieldSize popped.1
    let size ← difference table.size leaving
    return some (popped.1, { table with ring := popped.2, size }.forget popped.1 number)

def evictOldest (table : DynamicTable) : (count : Nat) → Option DynamicTable
  | 0 => some table
  | count + 1 => do
    match ← remove table with
    | none => return table
    | some removed => evictOldest removed.2 count

def overflows (size incoming capacity : Nat) : Option Bool := do
  let total ← sum Size.largest size incoming
  return capacity < total

def roundLength (policy : EvictionPolicy) (size incoming capacity : Nat) : Option Nat := do
  if ← overflows size incoming capacity then
    match policy with
    | .fifo => return 1
    | .batched averageEntrySize =>
      let total ← sum Size.largest size incoming
      let excess ← difference total capacity
      let whole ← quotient excess (max averageEntrySize 1)
      sum Size.largest whole 1
  else return 0

/-- Evict in rounds until an entry fits. After `rounds` of them there is no result. -/
def makeRoom (policy : EvictionPolicy) (incoming : Nat) :
    (rounds : Nat) → DynamicTable → Option DynamicTable
  | 0, _ => none
  | rounds + 1, table => do
    if ← overflows table.size incoming table.capacity then
      let count ← roundLength policy table.size incoming table.capacity
      let smaller ← evictOldest table count
      makeRoom policy incoming rounds smaller
    else return table

def insertNewest (table : DynamicTable) (field : Field) : Option DynamicTable := do
  let ring ← Ring.push table.ring field
  let entrySize ← fieldSize field
  let size ← sum Size.largest table.size entrySize
  let inserted ← sum Size.largest table.inserted 1
  return { table with
    ring
    size
    inserted
    latestByName := table.latestByName.insert field.name table.inserted
    latestByField := table.latestByField.insert field table.inserted }

def add (table : DynamicTable) (field : Field) : Option DynamicTable := do
  let entrySize ← fieldSize field
  if table.capacity < entrySize then return table.clear
  else
    let room ← makeRoom table.policy entrySize (table.length + 1) table
    insertNewest room field

def setCapacity (table : DynamicTable) (capacity : Nat) : Option DynamicTable :=
  makeRoom .fifo 0 (table.length + 1) { table with capacity }

/-! ## Tables whose numbers are words -/

/-- The views of the table agree, and there is room for one more entry in its numbers. -/
structure InWords (table : DynamicTable) : Prop where
  refines : table.Refines table.listing
  size_lt : table.size < Bits.values 63
  capacity_lt : table.capacity < Bits.values 63
  ring : Ring.InWords table.ring
  inserted_lt : table.inserted < Size.largest

variable {table : DynamicTable}

theorem fieldSize_eq {field : Field} (hsize : field.size ≤ Size.largest) :
    fieldSize field = some field.size := by
  unfold Field.size Field.length at hsize
  have hlength : field.name.length + field.value.length ≤ Size.largest := by omega
  rw [fieldSize, bind_of_eq_some (sum_of_le hlength)]
  exact sum_of_le hsize

theorem size_le_totalSize {entries : List Field} {entry : Field} (hentry : entry ∈ entries) :
    entry.size ≤ totalSize entries := by
  induction entries with
  | nil => exact absurd hentry List.not_mem_nil
  | cons newest entries hentries =>
    rw [totalSize]
    rcases List.mem_cons.1 hentry with rfl | hrest
    · exact Nat.le_add_right _ _
    · exact Nat.le_trans (hentries hrest) (Nat.le_add_left _ _)

theorem indexOf_eq {number? : Option Nat} (hnumber : ∀ number ∈ number?, number ≤ table.inserted) :
    indexOf table number? = some (number?.map (table.inserted - ·)) := by
  cases number? with
  | none => rfl
  | some number =>
    rw [indexOf, difference_of_le (hnumber number rfl)]
    rfl

namespace InWords

/-! ## Lookups -/

theorem get_eq (hwords : InWords table) (index : Nat) : get table index = some (table.get? index) :=
  Ring.get_eq hwords.refines.holds hwords.ring index

theorem findName_eq (hwords : InWords table) (name : Octets) :
    findName table name = some (table.findName? name) := by
  refine indexOf_eq fun number hnumber ↦ ?_
  rw [Option.mem_def, Std.TreeMap.get?_eq_getElem?, hwords.refines.names name] at hnumber
  obtain ⟨age, -, rfl⟩ := Option.map_eq_some_iff.1 hnumber
  exact Nat.sub_le _ _

theorem find_eq (hwords : InWords table) (field : Field) :
    find table field = some (table.find? field) := by
  refine indexOf_eq fun number hnumber ↦ ?_
  rw [Option.mem_def, Std.TreeMap.get?_eq_getElem?, hwords.refines.fields field] at hnumber
  obtain ⟨age, -, rfl⟩ := Option.map_eq_some_iff.1 hnumber
  exact Nat.sub_le _ _

/-! ## Removal -/

theorem size_le_of_popOldest? (hwords : InWords table) {popped : Field × RingBuffer Field}
    (hpop : table.ring.popOldest? = some popped) : popped.1.size ≤ table.size := by
  obtain ⟨field, hfield, rfl⟩ := Option.map_eq_some_iff.1 hpop
  rw [hwords.refines.holds.get?_eq] at hfield
  rw [hwords.refines.size_eq]
  exact size_le_totalSize (List.mem_of_getElem? hfield)

theorem remove_eq (hwords : InWords table) : remove table = some table.evictOldest? := by
  have hlargest := largest_eq
  have hhalf := values_half
  have hsmall := hwords.size_lt
  rw [remove, bind_of_eq_some (Ring.popOldest_eq hwords.refines.holds hwords.ring),
    DynamicTable.evictOldest?]
  cases hpop : table.ring.popOldest? with
  | none => rfl
  | some popped =>
    have hsize := hwords.size_le_of_popOldest? hpop
    have hlength : table.length ≤ table.inserted := by
      rw [hwords.refines.length_eq]
      exact hwords.refines.length_le
    dsimp only
    rw [bind_of_eq_some (difference_of_le hlength), bind_of_eq_some (fieldSize_eq (by omega)),
      bind_of_eq_some (difference_of_le hsize)]
    rfl

theorem evictOldest? (hwords : InWords table) {removed : Field × DynamicTable}
    (hremove : table.evictOldest? = some removed) : InWords removed.2 := by
  obtain ⟨entries, -, hrest⟩ := hwords.refines.evictOldest?_eq_some hremove
  obtain ⟨popped, hpop, rfl⟩ := Option.map_eq_some_iff.1 hremove
  obtain ⟨field, -, rfl⟩ := Option.map_eq_some_iff.1 hpop
  refine ⟨hrest.refines_listing, ?_, hwords.capacity_lt, ?_, hwords.inserted_lt⟩
  · exact Nat.lt_of_le_of_lt (Nat.sub_le _ _) hwords.size_lt
  · have hring := hwords.ring
    unfold Ring.InWords at hring ⊢
    simpa [DynamicTable.forget] using hring

theorem evictOldest_eq (hwords : InWords table) (count : Nat) :
    evictOldest table count = some (table.evictOldest count) ∧
      InWords (table.evictOldest count) := by
  induction count generalizing table with
  | zero => exact ⟨rfl, hwords⟩
  | succ count hcount =>
    rw [evictOldest, bind_of_eq_some hwords.remove_eq, DynamicTable.evictOldest]
    cases hremove : table.evictOldest? with
    | none => exact ⟨rfl, hwords⟩
    | some removed => exact hcount (hwords.evictOldest? hremove)

theorem overflows_eq {size incoming capacity : Nat} (hsum : size + incoming ≤ Size.largest) :
    overflows size incoming capacity = some (EvictionPolicy.overflows size incoming capacity) := by
  rw [overflows, bind_of_eq_some (sum_of_le hsum)]
  rfl

theorem roundLength_eq (policy : EvictionPolicy) {size incoming capacity : Nat}
    (hsum : size + incoming < Size.largest) :
    roundLength policy size incoming capacity =
      some (policy.roundLength size incoming capacity) := by
  have hle := Nat.le_of_lt hsum
  unfold roundLength EvictionPolicy.roundLength
  rw [bind_of_eq_some (overflows_eq hle)]
  by_cases hoverflows : EvictionPolicy.overflows size incoming capacity
  · rw [if_pos hoverflows, if_pos hoverflows]
    cases policy with
    | fifo => rfl
    | batched averageEntrySize =>
      have hcapacity : capacity < size + incoming := EvictionPolicy.overflows_iff.1 hoverflows
      have hwhole : (size + incoming - capacity) / max averageEntrySize 1 ≤
          size + incoming - capacity := Nat.div_le_self _ _
      dsimp only
      rw [bind_of_eq_some (sum_of_le hle),
        bind_of_eq_some (difference_of_le (Nat.le_of_lt hcapacity)),
        bind_of_eq_some (quotient_of_pos (by omega))]
      exact sum_of_le (by omega)
  · rw [if_neg hoverflows, if_neg hoverflows]
    rfl

theorem not_overflows_of_length_eq_zero (hwords : InWords table) {incoming : Nat}
    (hempty : table.length = 0) (hfits : incoming ≤ table.capacity) :
    ¬EvictionPolicy.overflows table.size incoming table.capacity := by
  have hentries : table.listing.entries = [] :=
    List.eq_nil_of_length_eq_zero (hwords.refines.length_eq.symm.trans hempty)
  rw [EvictionPolicy.overflows_iff, hwords.refines.size_eq, hentries, totalSize]
  omega

/-- Every round evicts an entry, and an entry that fits in the capacity fits in an empty table. -/
theorem makeRoom_eq (hwords : InWords table) (policy : EvictionPolicy) {incoming : Nat}
    (hincoming : incoming < Bits.values 63) (hfits : incoming ≤ table.capacity) {rounds : Nat}
    (hrounds : table.length ≤ rounds) :
    makeRoom policy incoming (rounds + 1) table =
        some (DynamicTable.makeRoom policy incoming rounds table) ∧
      InWords (DynamicTable.makeRoom policy incoming rounds table) := by
  induction rounds generalizing table with
  | zero =>
    have hlargest := largest_eq
    have hhalf := values_half
    have hsmall := hwords.size_lt
    have hempty := hwords.not_overflows_of_length_eq_zero (Nat.le_zero.1 hrounds) hfits
    rw [makeRoom, bind_of_eq_some (overflows_eq (by omega)), if_neg hempty]
    exact ⟨rfl, hwords⟩
  | succ rounds hrec =>
    have hlargest := largest_eq
    have hhalf := values_half
    have hsmall := hwords.size_lt
    have hsum : table.size + incoming < Size.largest := by omega
    rw [makeRoom, bind_of_eq_some (overflows_eq (Nat.le_of_lt hsum)), DynamicTable.makeRoom]
    by_cases hoverflows : EvictionPolicy.overflows table.size incoming table.capacity
    · obtain ⟨hevict, hsmaller⟩ := hwords.evictOldest_eq
        (policy.roundLength table.size incoming table.capacity)
      have hround := hwords.refines.evictOldest
        (policy.roundLength table.size incoming table.capacity)
      have hpos : 0 < policy.roundLength table.size incoming table.capacity :=
        EvictionPolicy.roundLength_pos hoverflows
      have hfewer : (table.evictOldest
          (policy.roundLength table.size incoming table.capacity)).length ≤ rounds := by
        have hlength := hwords.refines.length_eq
        rw [hround.length_eq, List.length_take]
        omega
      have hsame : incoming ≤ (table.evictOldest
          (policy.roundLength table.size incoming table.capacity)).capacity := by
        rw [hround.capacity_eq]
        exact hfits
      rw [if_pos hoverflows, if_pos hoverflows, bind_of_eq_some (roundLength_eq policy hsum),
        bind_of_eq_some hevict]
      exact hrec hsmaller hsame hfewer
    · rw [if_neg hoverflows, if_neg hoverflows]
      exact ⟨rfl, hwords⟩

/-! ## Insertion and capacity -/

theorem insertNewest_eq (hwords : InWords table) {field : Field}
    (hsize : field.size < Bits.values 63) :
    insertNewest table field = some (table.insertNewest field) := by
  have hlargest := largest_eq
  have hhalf := values_half
  have hsmall := hwords.size_lt
  have hinserted := hwords.inserted_lt
  have hsum : table.size + field.size ≤ Size.largest := by omega
  have hnext : table.inserted + 1 ≤ Size.largest := hinserted
  rw [insertNewest, bind_of_eq_some (Ring.push_eq hwords.refines.holds hwords.ring field),
    bind_of_eq_some (fieldSize_eq (by omega)), bind_of_eq_some (sum_of_le hsum),
    bind_of_eq_some (sum_of_le hnext)]
  rfl

theorem add_eq (hwords : InWords table) {field : Field} (hfield : field.size ≤ Size.largest) :
    add table field = some (table.add field) := by
  rw [add, bind_of_eq_some (fieldSize_eq hfield), DynamicTable.add]
  by_cases hlarge : table.capacity < field.size
  · rw [if_pos hlarge, if_pos hlarge]
    rfl
  · have hsize : field.size < Bits.values 63 :=
      Nat.lt_of_le_of_lt (Nat.le_of_not_lt hlarge) hwords.capacity_lt
    obtain ⟨hroom, hwords⟩ := hwords.makeRoom_eq table.policy hsize (Nat.le_of_not_lt hlarge)
      (Nat.le_refl table.length)
    rw [if_neg hlarge, if_neg hlarge, bind_of_eq_some hroom]
    exact hwords.insertNewest_eq hsize

theorem setCapacity_eq (hwords : InWords table) {capacity : Nat}
    (hcapacity : capacity < Bits.values 63) :
    setCapacity table capacity = some (table.setCapacity capacity) := by
  have hchanged : InWords { table with capacity } := by
    have hrefines : { table with capacity : DynamicTable }.Refines
        { table.listing with capacity } := { hwords.refines with capacity_eq := rfl }
    exact { hwords with refines := hrefines, capacity_lt := hcapacity }
  exact (hchanged.makeRoom_eq .fifo (Bits.values_pos 63) (Nat.zero_le capacity)
    (Nat.le_refl table.length)).1

end InWords

end HeaderCompression.Checked.Table
