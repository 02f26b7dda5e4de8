import HeaderCompression.Proofs.Table.LatestInsertions
import HeaderCompression.Proofs.Table.ListTable
import HeaderCompression.Proofs.Table.RingBuffer
import HeaderCompression.Table.DynamicTable

/-!
# Dynamic tables as lists

A dynamic table refines a list table if its ring holds the entries, its size is the sum of theirs,
and its search trees track the latest insertions. Every operation on the one does to the other what
its name says, so that a dynamic table can be replaced by the list of its entries.
-/

namespace HeaderCompression.Table

/-! ## Refinement -/

structure DynamicTable.Refines (table : DynamicTable) (list : ListTable) : Prop where
  holds : table.ring.Holds list.entries
  size_eq : table.size = totalSize list.entries
  capacity_eq : table.capacity = list.capacity
  policy_eq : table.policy = list.policy
  /-- Every entry was inserted once. -/
  length_le : list.entries.length ≤ table.inserted
  names : Tracks table.latestByName Field.name list.entries table.inserted
  fields : Tracks table.latestByField id list.entries table.inserted

theorem totalSize_append (entries others : List Field) :
    totalSize (entries ++ others) = totalSize entries + totalSize others := by
  induction entries with
  | nil => exact (Nat.zero_add (totalSize others)).symm
  | cons entry entries hentries =>
    rw [List.cons_append, totalSize, totalSize, hentries, Nat.add_assoc]

namespace DynamicTable

theorem refines_ofCapacity (capacity : Nat) (policy : EvictionPolicy) :
    (ofCapacity capacity policy).Refines ⟨[], capacity, policy⟩ where
  holds := RingBuffer.holds_empty
  size_eq := rfl
  capacity_eq := rfl
  policy_eq := rfl
  length_le := Nat.le_refl 0
  names := tracks_empty Field.name 0
  fields := tracks_empty id 0

end DynamicTable

namespace DynamicTable.Refines

variable {table : DynamicTable} {list : ListTable}

theorem toList_eq (hrefines : table.Refines list) : table.toList = list.entries :=
  hrefines.holds.toList_eq

theorem length_eq (hrefines : table.Refines list) : table.length = list.entries.length :=
  hrefines.holds.count_eq

theorem get?_eq (hrefines : table.Refines list) (index : Nat) :
    table.get? index = list.get? index := by
  rw [DynamicTable.get?, ListTable.get?, hrefines.holds.get?_eq]

/-! ## Lookups by content -/

theorem number_to_index {κ : Type} [DecidableEq κ] {key : Field → κ} {entries : List Field}
    {inserted : Nat} (hlength : entries.length ≤ inserted) (wanted : κ) :
    ((newestAge? key entries wanted).map fun age ↦ inserted - (age + 1)).map (inserted - ·) =
      (newestAge? key entries wanted).map (· + 1) := by
  cases hage : newestAge? key entries wanted with
  | none => rfl
  | some age =>
    have hnewest := lt_length_of_newestAge? hage
    have hindex : inserted - (inserted - (age + 1)) = age + 1 := by omega
    rw [Option.map_some, Option.map_some, hindex, Option.map_some]

theorem find?_eq (hrefines : table.Refines list) (field : Field) :
    table.find? field = (newestAge? id list.entries field).map (· + 1) := by
  rw [DynamicTable.find?, Std.TreeMap.get?_eq_getElem?, hrefines.fields field,
    number_to_index hrefines.length_le]

theorem findName?_eq (hrefines : table.Refines list) (name : Octets) :
    table.findName? name = (newestAge? Field.name list.entries name).map (· + 1) := by
  rw [DynamicTable.findName?, Std.TreeMap.get?_eq_getElem?, hrefines.names name,
    number_to_index hrefines.length_le]

/-! ## Removal -/

theorem evictOldest?_nil (hrefines : table.Refines list) (hnil : list.entries = []) :
    table.evictOldest? = none := by
  have hholds := hrefines.holds
  rw [hnil] at hholds
  rw [DynamicTable.evictOldest?, hholds.popOldest?_nil, Option.map_none]

theorem evictOldest?_append (hrefines : table.Refines list) {entries : List Field} {oldest : Field}
    (hentries : list.entries = entries ++ [oldest]) :
    ∃ rest, table.evictOldest? = some (oldest, rest) ∧ rest.Refines { list with entries } := by
  have hholds := hrefines.holds
  have hsize := hrefines.size_eq
  have hlength := hrefines.length_le
  have hnames := hrefines.names
  have hfields := hrefines.fields
  rw [hentries] at hholds hsize hlength hnames hfields
  rw [List.length_append, List.length_singleton] at hlength
  obtain ⟨ring, hpop, hring⟩ := hholds.popOldest?_append
  refine ⟨_, by rw [DynamicTable.evictOldest?, hpop, Option.map_some], ?_⟩
  have hcount : table.length = entries.length + 1 := by
    rw [hrefines.length_eq, hentries, List.length_append, List.length_singleton]
  constructor
  · exact hring
  · have htotal : table.size = totalSize entries + oldest.size := by
      rw [hsize, totalSize_append]
      rfl
    exact Nat.sub_eq_of_eq_add htotal
  · exact hrefines.capacity_eq
  · exact hrefines.policy_eq
  · exact Nat.le_of_succ_le hlength
  · have hforget := hnames.forget hlength
    rw [← hcount] at hforget
    exact hforget
  · have hforget := hfields.forget hlength
    rw [← hcount] at hforget
    exact hforget

theorem evictOldest (hrefines : table.Refines list) (count : Nat) :
    (table.evictOldest count).Refines
      { list with entries := list.entries.take (list.entries.length - count) } := by
  induction count generalizing table list with
  | zero =>
    rw [Nat.sub_zero, List.take_length]
    exact hrefines
  | succ count hcount =>
    rcases List.eq_nil_or_concat list.entries with hnil | ⟨entries, oldest, hentries⟩
    · rw [DynamicTable.evictOldest, hrefines.evictOldest?_nil hnil, List.take_of_length_le]
      · exact hrefines
      · rw [hnil]
        exact Nat.zero_le _
    · rw [List.concat_eq_append] at hentries
      obtain ⟨rest, hevict, hrest⟩ := hrefines.evictOldest?_append hentries
      have hlength : (entries ++ [oldest]).length - (count + 1) = entries.length - count := by
        rw [List.length_append, List.length_singleton, Nat.add_sub_add_right]
      rw [DynamicTable.evictOldest, hevict, hentries, hlength,
        List.take_append_of_le_length (Nat.sub_le entries.length count)]
      exact hcount hrest

/-- As many rounds as there are entries suffice, since each round takes at least one. -/
theorem makeRoom (hrefines : table.Refines list) (policy : EvictionPolicy) (incoming : Nat)
    {rounds : Nat} (hrounds : list.entries.length ≤ rounds) :
    (DynamicTable.makeRoom policy incoming rounds table).Refines
      { list with
        entries := ListTable.makeRoom policy incoming list.capacity list.entries } := by
  induction rounds generalizing table list with
  | zero =>
    have hnil : list.entries = [] := List.eq_nil_of_length_eq_zero (Nat.le_zero.1 hrounds)
    rw [hnil, ListTable.makeRoom_nil, ← hnil]
    exact hrefines
  | succ rounds hrec =>
    unfold DynamicTable.makeRoom
    rw [hrefines.size_eq, hrefines.capacity_eq]
    by_cases hfull : list.capacity < totalSize list.entries + incoming
    · have hoverflows := EvictionPolicy.overflows_iff.2 hfull
      have hpos : 0 < policy.roundLength (totalSize list.entries) incoming list.capacity :=
        EvictionPolicy.roundLength_pos hoverflows
      have hround := hrefines.evictOldest
        (policy.roundLength (totalSize list.entries) incoming list.capacity)
      have hshorter : (list.entries.take (list.entries.length -
          policy.roundLength (totalSize list.entries) incoming list.capacity)).length ≤ rounds := by
        rw [List.length_take]
        omega
      rw [if_pos hoverflows, ListTable.makeRoom_round hfull]
      exact hrec hround hshorter
    · have hfits : ¬EvictionPolicy.overflows (totalSize list.entries) incoming list.capacity := by
        rwa [EvictionPolicy.overflows_iff]
      rw [if_neg hfits, ListTable.makeRoom_of_fits hfull]
      exact hrefines

theorem clear (hrefines : table.Refines list) : table.clear.Refines list.clear where
  holds := RingBuffer.holds_clear table.ring
  size_eq := rfl
  capacity_eq := hrefines.capacity_eq
  policy_eq := hrefines.policy_eq
  length_le := Nat.zero_le table.inserted
  names := tracks_empty Field.name table.inserted
  fields := tracks_empty id table.inserted

/-! ## Insertion and capacity -/

theorem insertNewest (hrefines : table.Refines list) (field : Field) :
    (table.insertNewest field).Refines { list with entries := field :: list.entries } where
  holds := hrefines.holds.push field
  size_eq := by
    rw [totalSize, ← hrefines.size_eq]
    exact Nat.add_comm table.size field.size
  capacity_eq := hrefines.capacity_eq
  policy_eq := hrefines.policy_eq
  length_le := Nat.succ_le_succ hrefines.length_le
  names := hrefines.names.insert field
  fields := hrefines.fields.insert field

theorem add (hrefines : table.Refines list) (field : Field) :
    (table.add field).Refines (list.add field) := by
  unfold DynamicTable.add ListTable.add
  rw [hrefines.capacity_eq]
  split
  · exact hrefines.clear
  · have hroom := hrefines.makeRoom table.policy field.size (Nat.le_of_eq hrefines.length_eq.symm)
    rw [hrefines.policy_eq] at hroom ⊢
    exact hroom.insertNewest field

theorem setCapacity (hrefines : table.Refines list) (capacity : Nat) :
    (table.setCapacity capacity).Refines (list.setCapacity capacity) := by
  have hchanged : { table with capacity : DynamicTable }.Refines { list with capacity } :=
    { hrefines with capacity_eq := rfl }
  exact hchanged.makeRoom .fifo 0 (Nat.le_of_eq hrefines.length_eq.symm)

theorem setPolicy (hrefines : table.Refines list) (policy : EvictionPolicy) :
    (table.setPolicy policy).Refines (list.setPolicy policy) :=
  { hrefines with policy_eq := rfl }

end DynamicTable.Refines

theorem DynamicTable.setPolicy_eq_self {table : DynamicTable} {policy : EvictionPolicy}
    (hpolicy : table.policy = policy) : table.setPolicy policy = table := by
  subst hpolicy
  rfl

/-! ## Well-formed tables -/

namespace DynamicTable

/-- What a table amounts to when it is well formed. -/
def listing (table : DynamicTable) : ListTable :=
  ⟨table.toList, table.capacity, table.policy⟩

theorem Refines.listing_eq {table : DynamicTable} {list : ListTable}
    (hrefines : table.Refines list) : table.listing = list := by
  rw [listing, hrefines.toList_eq, hrefines.capacity_eq, hrefines.policy_eq]

theorem Refines.refines_listing {table : DynamicTable} {list : ListTable}
    (hrefines : table.Refines list) : table.Refines table.listing := by
  rwa [hrefines.listing_eq]

/-- What leaves is the last entry. -/
theorem Refines.evictOldest?_eq_some {table : DynamicTable} {list : ListTable}
    (hrefines : table.Refines list) {evicted : Field × DynamicTable}
    (hevict : table.evictOldest? = some evicted) :
    ∃ entries, list.entries = entries ++ [evicted.1] ∧
      evicted.2.Refines { list with entries } := by
  rcases List.eq_nil_or_concat list.entries with hnil | ⟨entries, oldest, hentries⟩
  · rw [hrefines.evictOldest?_nil hnil] at hevict
    cases hevict
  · rw [List.concat_eq_append] at hentries
    obtain ⟨rest, hoccurs, hrest⟩ := hrefines.evictOldest?_append hentries
    obtain rfl := Option.some.inj (hevict.symm.trans hoccurs)
    exact ⟨entries, hentries, hrest⟩

/-- All views of the table agree, and its entries fit in its capacity. -/
structure WellFormed (table : DynamicTable) : Prop where
  refines : table.Refines table.listing
  fits : table.listing.Fits

theorem Refines.wellFormed {table : DynamicTable} {list : ListTable}
    (hrefines : table.Refines list) (hfits : list.Fits) : table.WellFormed := by
  obtain rfl := hrefines.listing_eq
  exact ⟨hrefines, hfits⟩

theorem wellFormed_ofCapacity (capacity : Nat) (policy : EvictionPolicy) :
    (ofCapacity capacity policy).WellFormed :=
  (refines_ofCapacity capacity policy).wellFormed (Nat.zero_le capacity)

namespace WellFormed

variable {table : DynamicTable}

theorem clear (htable : table.WellFormed) : table.clear.WellFormed :=
  htable.refines.clear.wellFormed table.listing.fits_clear

theorem add (htable : table.WellFormed) (field : Field) : (table.add field).WellFormed :=
  (htable.refines.add field).wellFormed (table.listing.fits_add field)

theorem setCapacity (htable : table.WellFormed) (capacity : Nat) :
    (table.setCapacity capacity).WellFormed :=
  (htable.refines.setCapacity capacity).wellFormed (table.listing.fits_setCapacity capacity)

theorem setPolicy (htable : table.WellFormed) (policy : EvictionPolicy) :
    (table.setPolicy policy).WellFormed :=
  (htable.refines.setPolicy policy).wellFormed htable.fits

theorem listing_clear (htable : table.WellFormed) : table.clear.listing = table.listing.clear :=
  htable.refines.clear.listing_eq

theorem listing_add (htable : table.WellFormed) (field : Field) :
    (table.add field).listing = table.listing.add field :=
  (htable.refines.add field).listing_eq

theorem listing_setCapacity (htable : table.WellFormed) (capacity : Nat) :
    (table.setCapacity capacity).listing = table.listing.setCapacity capacity :=
  (htable.refines.setCapacity capacity).listing_eq

theorem listing_setPolicy (htable : table.WellFormed) (policy : EvictionPolicy) :
    (table.setPolicy policy).listing = table.listing.setPolicy policy :=
  (htable.refines.setPolicy policy).listing_eq

theorem size_eq (htable : table.WellFormed) : table.size = totalSize table.toList :=
  htable.refines.size_eq

end WellFormed

end DynamicTable

end HeaderCompression.Table
