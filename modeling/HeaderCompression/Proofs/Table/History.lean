import HeaderCompression.Proofs.Table.Eviction
import HeaderCompression.Proofs.Table.Refinement
import Mathlib.Order.Bounds.Defs

/-!
# Histories of a table

A table that begins empty and goes through any operations shows one list of fields, newest first, in
all of its views. An operation changes that list only at its ends: entries leave it at the old end,
and an added field comes in at the front.
-/

namespace HeaderCompression.Table

/-! ## Operations -/

/-- What can be done to a table. -/
inductive Operation where
  | add (field : Field)
  | removeOldest
  | clear
  | setCapacity (capacity : Nat)
  | setPolicy (policy : EvictionPolicy)

def DynamicTable.perform (table : DynamicTable) : Operation → DynamicTable
  | .add field => table.add field
  | .removeOldest => (table.evictOldest?.map Prod.snd).getD table
  | .clear => table.clear
  | .setCapacity capacity => table.setCapacity capacity
  | .setPolicy policy => table.setPolicy policy

def ListTable.perform (table : ListTable) : Operation → ListTable
  | .add field => table.add field
  | .removeOldest => { table with entries := table.entries.dropLast }
  | .clear => table.clear
  | .setCapacity capacity => table.setCapacity capacity
  | .setPolicy policy => table.setPolicy policy

/-- How an operation may change the entries. -/
def Operation.Changes (before after : List Field) : Operation → Prop
  | add field => ∃ kept, kept <+: before ∧ (after = kept ∨ after = field :: kept)
  | removeOldest => after = before.dropLast
  | clear => after = []
  | setCapacity _ => after <+: before
  | setPolicy _ => after = before

theorem ListTable.changes_perform (table : ListTable) (operation : Operation) :
    operation.Changes table.entries (table.perform operation).entries := by
  cases operation with
  | add field =>
    rw [ListTable.perform, ListTable.add]
    split
    · exact ⟨[], List.nil_prefix, .inl rfl⟩
    · exact ⟨_, makeRoom_isPrefix table.policy field.size table.capacity table.entries, .inr rfl⟩
  | removeOldest => rfl
  | clear => rfl
  | setCapacity capacity => exact makeRoom_isPrefix .fifo 0 capacity table.entries
  | setPolicy policy => rfl

/-! ## Views -/

namespace DynamicTable

/-- All views of the table are views of these entries, newest first. A lookup by content finds the
least index that it may find. -/
structure Shows (table : DynamicTable) (entries : List Field) : Prop where
  length_eq : table.length = entries.length
  size_eq : table.size = totalSize entries
  get?_zero : table.get? 0 = none
  get?_succ (age : Nat) : table.get? (age + 1) = entries[age]?
  toList_eq : table.toList = entries
  oldest_eq : table.evictOldest?.map Prod.fst = entries.getLast?
  find?_eq_some_iff (field : Field) (index : Nat) :
    table.find? field = some index ↔ IsLeast {index | table.get? index = some field} index
  find?_eq_none_iff (field : Field) :
    table.find? field = none ↔ ∀ index, table.get? index ≠ some field
  findName?_eq_some_iff (name : Octets) (index : Nat) :
    table.findName? name = some index ↔
      IsLeast {index | ∃ field, table.get? index = some field ∧ field.name = name} index
  findName?_eq_none_iff (name : Octets) :
    table.findName? name = none ↔ ∀ index field, table.get? index = some field → field.name ≠ name

namespace Refines

variable {table : DynamicTable} {list : ListTable}

theorem get?_succ (hrefines : table.Refines list) (age : Nat) :
    table.get? (age + 1) = list.entries[age]? := by
  rw [hrefines.get?_eq, ListTable.get?, if_neg (Nat.succ_ne_zero age), Nat.add_sub_cancel]

theorem get?_eq_some_iff (hrefines : table.Refines list) {index : Nat} {field : Field} :
    table.get? index = some field ↔ ∃ age, index = age + 1 ∧ list.entries[age]? = some field := by
  cases index with
  | zero =>
    rw [hrefines.get?_eq, ListTable.get?, if_pos rfl]
    simp
  | succ age =>
    rw [hrefines.get?_succ]
    simp

section Newest

variable {κ : Type} [DecidableEq κ] {key : Field → κ} {wanted : κ}

/-- The newest entry with a key is the one at the least index. -/
theorem newest_eq_some_iff (hrefines : table.Refines list) {index : Nat} :
    (newestAge? key list.entries wanted).map (· + 1) = some index ↔
      IsLeast {index | ∃ field, table.get? index = some field ∧ key field = wanted} index := by
  constructor
  · intro hnewest
    obtain ⟨age, hage, rfl⟩ := Option.map_eq_some_iff.1 hnewest
    obtain ⟨⟨field, hfield, hkey⟩, hleast⟩ := newestAge?_eq_some_iff.1 hage
    refine ⟨⟨field, by rw [hrefines.get?_succ, hfield], hkey⟩, ?_⟩
    rintro index ⟨other, hindex, hother⟩
    obtain ⟨later, rfl, hlater⟩ := hrefines.get?_eq_some_iff.1 hindex
    exact Nat.succ_le_succ (hleast later other hlater hother)
  · rintro ⟨⟨field, hindex, hkey⟩, hleast⟩
    obtain ⟨age, rfl, hfield⟩ := hrefines.get?_eq_some_iff.1 hindex
    refine Option.map_eq_some_iff.2 ⟨age, newestAge?_eq_some_iff.2 ⟨⟨field, hfield, hkey⟩, ?_⟩, rfl⟩
    intro later other hlater hother
    have hindex : table.get? (later + 1) = some other := by rw [hrefines.get?_succ, hlater]
    exact Nat.le_of_succ_le_succ (hleast ⟨other, hindex, hother⟩)

theorem newest_eq_none_iff (hrefines : table.Refines list) :
    (newestAge? key list.entries wanted).map (· + 1) = none ↔
      ∀ index field, table.get? index = some field → key field ≠ wanted := by
  rw [Option.map_eq_none_iff, newestAge?_eq_none_iff]
  constructor
  · intro hnone index field hindex
    obtain ⟨age, -, hfield⟩ := hrefines.get?_eq_some_iff.1 hindex
    exact hnone field (List.mem_of_getElem? hfield)
  · intro hnone field hmem
    obtain ⟨age, hfield⟩ := List.mem_iff_getElem?.1 hmem
    exact hnone (age + 1) field (by rw [hrefines.get?_succ, hfield])

end Newest

theorem oldest_eq (hrefines : table.Refines list) :
    table.evictOldest?.map Prod.fst = list.entries.getLast? := by
  rcases List.eq_nil_or_concat list.entries with hnil | ⟨entries, oldest, hentries⟩
  · rw [hrefines.evictOldest?_nil hnil, hnil, Option.map_none, List.getLast?_nil]
  · rw [List.concat_eq_append] at hentries
    obtain ⟨rest, hevict, -⟩ := hrefines.evictOldest?_append hentries
    rw [hevict, hentries, Option.map_some, List.getLast?_concat]

theorem shows (hrefines : table.Refines list) : table.Shows list.entries where
  length_eq := hrefines.length_eq
  size_eq := hrefines.size_eq
  get?_zero := hrefines.get?_eq 0
  get?_succ := hrefines.get?_succ
  toList_eq := hrefines.toList_eq
  oldest_eq := hrefines.oldest_eq
  find?_eq_some_iff field index := by
    rw [hrefines.find?_eq, hrefines.newest_eq_some_iff]
    simp
  find?_eq_none_iff field := by
    rw [hrefines.find?_eq, hrefines.newest_eq_none_iff]
    exact forall_congr' fun index ↦ ⟨fun hnone hfield ↦ hnone field hfield rfl,
      fun hnone other hother hfield ↦ hnone (hother.trans (congrArg some hfield))⟩
  findName?_eq_some_iff name index := by
    rw [hrefines.findName?_eq, hrefines.newest_eq_some_iff]
  findName?_eq_none_iff name := by
    rw [hrefines.findName?_eq, hrefines.newest_eq_none_iff]

/-! ## Runs -/

theorem removeOldest (hrefines : table.Refines list) :
    (table.perform .removeOldest).Refines (list.perform .removeOldest) := by
  rw [DynamicTable.perform, ListTable.perform]
  rcases List.eq_nil_or_concat list.entries with hnil | ⟨entries, oldest, hentries⟩
  · rw [hrefines.evictOldest?_nil hnil, hnil, List.dropLast_nil, ← hnil]
    exact hrefines
  · rw [List.concat_eq_append] at hentries
    obtain ⟨rest, hevict, hrest⟩ := hrefines.evictOldest?_append hentries
    rw [hevict, hentries, List.dropLast_concat]
    exact hrest

/-- One operation does to the table what it does to the list. -/
theorem perform (hrefines : table.Refines list) (operation : Operation) :
    (table.perform operation).Refines (list.perform operation) := by
  cases operation with
  | add field => exact hrefines.add field
  | removeOldest => exact hrefines.removeOldest
  | clear => exact hrefines.clear
  | setCapacity capacity => exact hrefines.setCapacity capacity
  | setPolicy policy => exact hrefines.setPolicy policy

theorem foldl_perform (hrefines : table.Refines list) (operations : List Operation) :
    (operations.foldl DynamicTable.perform table).Refines
      (operations.foldl ListTable.perform list) := by
  induction operations generalizing table list with
  | nil => exact hrefines
  | cons operation operations hoperations => exact hoperations (hrefines.perform operation)

end Refines

/-! ## What well-formed tables hold -/

namespace WellFormed

variable {table : DynamicTable}

theorem toList_clear (htable : table.WellFormed) : table.clear.toList = [] :=
  congrArg ListTable.entries htable.listing_clear

theorem capacity_add (htable : table.WellFormed) (field : Field) :
    (table.add field).capacity = table.capacity :=
  (congrArg ListTable.capacity (htable.listing_add field)).trans (table.listing.capacity_add field)

theorem capacity_setCapacity (htable : table.WellFormed) (capacity : Nat) :
    (table.setCapacity capacity).capacity = capacity :=
  congrArg ListTable.capacity (htable.listing_setCapacity capacity)

theorem mem_add (htable : table.WellFormed) {field entry : Field}
    (hentry : entry ∈ (table.add field).toList) : entry = field ∨ entry ∈ table.toList := by
  have hlisting := congrArg ListTable.entries (htable.listing_add field)
  have hchanges := table.listing.changes_perform (.add field)
  obtain ⟨kept, hkept, hafter⟩ := hchanges
  have hentries : (table.add field).toList = (table.listing.add field).entries := hlisting
  rw [hentries] at hentry
  rw [ListTable.perform] at hafter
  rcases hafter with hafter | hafter
  · rw [hafter] at hentry
    exact .inr (hkept.subset hentry)
  · rw [hafter] at hentry
    exact (List.mem_cons.1 hentry).imp_right fun hrest ↦ hkept.subset hrest

theorem mem_setCapacity (htable : table.WellFormed) {capacity : Nat} {entry : Field}
    (hentry : entry ∈ (table.setCapacity capacity).toList) : entry ∈ table.toList := by
  have hentries : (table.setCapacity capacity).toList =
      (table.listing.setCapacity capacity).entries :=
    congrArg ListTable.entries (htable.listing_setCapacity capacity)
  rw [hentries] at hentry
  exact (ListTable.makeRoom_isPrefix .fifo 0 capacity table.toList).subset hentry

end WellFormed

/-! ## From the beginning -/

/-- A table that begins empty shows, after any operations, the list that the operations so far have
left, and every further operation changes that list at its ends only. -/
theorem exists_contents_of_operations (capacity : Nat) (policy : EvictionPolicy) :
    ∃ contents : List Operation → List Field, contents [] = [] ∧
      ∀ operations : List Operation,
        (operations.foldl perform (ofCapacity capacity policy)).Shows (contents operations) ∧
          ∀ operation : Operation,
            operation.Changes (contents operations) (contents (operations ++ [operation])) := by
  refine ⟨fun operations ↦ (operations.foldl ListTable.perform ⟨[], capacity, policy⟩).entries, rfl,
    fun operations ↦ ⟨?_, fun operation ↦ ?_⟩⟩
  · have hrefines := (refines_ofCapacity capacity policy).foldl_perform operations
    exact hrefines.shows
  · simp only [List.foldl_append, List.foldl_cons, List.foldl_nil]
    exact ListTable.changes_perform _ operation

end DynamicTable

end HeaderCompression.Table
