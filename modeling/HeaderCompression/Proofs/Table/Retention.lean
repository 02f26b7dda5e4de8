import HeaderCompression.Proofs.LongestWithin
import HeaderCompression.Proofs.Table.History

/-!
# What a table retains

With one entry a round, a table that makes room keeps as much as it can: the entries after an
addition or a change of capacity are the longest first part of those before, the added field in
front, that fits in the capacity. So a table that is made smaller in several steps, or smaller and
larger again, retains what the smallest capacity admits.
-/

namespace HeaderCompression.Table

namespace ListTable

variable {table : ListTable} {field : Field}

theorem entries_add (hsize : field.size ≤ table.capacity) :
    (table.add field).entries =
      field :: makeRoom table.policy field.size table.capacity table.entries := by
  rw [add, if_neg (Nat.not_lt.2 hsize)]

theorem entries_add_of_capacity_lt (hsize : table.capacity < field.size) :
    (table.add field).entries = [] := by
  rw [add, if_pos hsize, clear]

/-- The new entry always fits, so it is in front of whatever else is retained. -/
theorem isLongestWithin_add (hpolicy : table.policy = .fifo) (hsize : field.size ≤ table.capacity) :
    IsLongestWithin totalSize table.capacity (field :: table.entries)
      (table.add field).entries := by
  rw [entries_add hsize, hpolicy]
  apply isLongestWithin_of_isPrefix_iff
  intro part
  cases part with
  | nil => simp [totalSize]
  | cons first part =>
    rw [List.cons_prefix_cons, List.cons_prefix_cons, isPrefix_makeRoom_fifo_iff, totalSize,
      and_assoc]
    refine and_congr_right ?_
    rintro rfl
    refine and_congr_right fun _ ↦ ?_
    constructor
    · rintro (rfl | hfits)
      · exact hsize
      · omega
    · intro hfits
      right
      omega

theorem isLongestWithin_setCapacity (table : ListTable) (capacity : Nat) :
    IsLongestWithin totalSize capacity table.entries (table.setCapacity capacity).entries :=
  isLongestWithin_of_isPrefix_iff fun _ ↦ isPrefix_setCapacity_iff

theorem entries_setCapacity_setCapacity (table : ListTable) (first second : Nat) :
    ((table.setCapacity first).setCapacity second).entries =
      (table.setCapacity (min first second)).entries := by
  apply eq_of_isPrefix_iff
  intro kept
  rw [isPrefix_setCapacity_iff, isPrefix_setCapacity_iff, isPrefix_setCapacity_iff, and_assoc,
    Nat.le_min]

end ListTable

namespace DynamicTable

/-- Whatever has happened to a table, an addition with one entry a round leaves the longest first
part that fits, with the added field at index 1, and nothing if the field alone does not fit. A
change of capacity leaves the longest first part that fits under any policy, and two changes leave
what a change to the smaller capacity leaves. -/
theorem longest_part_is_retained (capacity : Nat) (policy : EvictionPolicy)
    (operations : List Operation) :
    let table := operations.foldl perform (ofCapacity capacity policy)
    (table.policy = .fifo → ∀ field : Field, field.size ≤ table.capacity →
      IsLongestWithin totalSize table.capacity (field :: table.toList) (table.add field).toList ∧
        (table.add field).get? 1 = some field) ∧
      (∀ field : Field, table.capacity < field.size → (table.add field).toList = []) ∧
      (∀ capacity : Nat,
        IsLongestWithin totalSize capacity table.toList (table.setCapacity capacity).toList) ∧
      ∀ first second : Nat, ((table.setCapacity first).setCapacity second).toList =
        (table.setCapacity (min first second)).toList := by
  intro table
  have hrefines := (refines_ofCapacity capacity policy).foldl_perform operations
  generalize operations.foldl ListTable.perform ⟨[], capacity, policy⟩ = list at hrefines
  change table.Refines list at hrefines
  rw [hrefines.policy_eq, hrefines.capacity_eq, hrefines.toList_eq]
  refine ⟨fun hpolicy field hsize ↦ ⟨?_, ?_⟩, fun field hsize ↦ ?_, fun capacity ↦ ?_,
    fun first second ↦ ?_⟩
  · rw [(hrefines.add field).toList_eq]
    exact ListTable.isLongestWithin_add hpolicy hsize
  · rw [(hrefines.add field).get?_succ, ListTable.entries_add hsize, List.getElem?_cons_zero]
  · rw [(hrefines.add field).toList_eq, ListTable.entries_add_of_capacity_lt hsize]
  · rw [(hrefines.setCapacity capacity).toList_eq]
    exact ListTable.isLongestWithin_setCapacity list capacity
  · rw [((hrefines.setCapacity first).setCapacity second).toList_eq,
      (hrefines.setCapacity (min first second)).toList_eq]
    exact ListTable.entries_setCapacity_setCapacity list first second

/-- Of two entries that fill the table, the older one leaves for a third. -/
theorem longest_part_is_retained_of_full_table :
    let operations : List Operation := [.add ⟨[0x61], []⟩, .add ⟨[0x62], []⟩]
    let table := operations.foldl perform (ofCapacity 66 .fifo)
    let field : Field := ⟨[0x63], []⟩
    table.policy = .fifo ∧ field.size ≤ table.capacity ∧
      (table.add field).toList = [⟨[0x63], []⟩, ⟨[0x62], []⟩] ∧
      IsLongestWithin totalSize table.capacity (field :: table.toList) (table.add field).toList ∧
        (table.add field).get? 1 = some field := by
  intro operations table field
  have hpolicy : table.policy = .fifo := rfl
  have hsize : field.size ≤ table.capacity := by decide +kernel
  have hentries : (table.add field).toList = [⟨[0x63], []⟩, ⟨[0x62], []⟩] := by decide +kernel
  have hretained := (longest_part_is_retained 66 .fifo operations).1 hpolicy field hsize
  exact ⟨hpolicy, hsize, hentries, hretained⟩

end DynamicTable

end HeaderCompression.Table
