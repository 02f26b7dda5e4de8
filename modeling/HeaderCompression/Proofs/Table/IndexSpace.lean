import HeaderCompression.Proofs.Table.Refinement
import HeaderCompression.Table.IndexSpace

/-!
# One list for both tables

The index space is one list: the entries of the static table, followed by those of the dynamic
table. An index that a lookup finds refers to what was looked for.
-/

namespace HeaderCompression.Table

namespace ListTable

/-- All fields that have an index, in the order of their indexes. -/
def indexed (table : ListTable) : List Field :=
  StaticTable.entries.toList ++ table.entries

/-- The entry of either table at an index; indexes start at 1. -/
def lookup? (table : ListTable) (index : Nat) : Option Field :=
  if index = 0 then none else table.indexed[index - 1]?

/-- The field that an index refers to. -/
def resolve (table : ListTable) (index : Nat) : Except DecodingError Field :=
  match table.lookup? index with
  | some field => .ok field
  | none => .error (.illegalIndex index)

section Resolving

variable {table : ListTable} {index place : Nat} {field : Field}

theorem resolve_eq_ok_iff :
    table.resolve index = .ok field ↔
      ∃ place, index = place + 1 ∧ table.indexed[place]? = some field := by
  cases index with
  | zero => simp [resolve, lookup?]
  | succ place => cases hfield : table.indexed[place]? <;> simp [resolve, lookup?, hfield]

theorem resolve_succ (hfield : table.indexed[place]? = some field) :
    table.resolve (place + 1) = .ok field :=
  resolve_eq_ok_iff.2 ⟨place, rfl, hfield⟩

theorem mem_indexed_of_resolve (hresolve : table.resolve index = .ok field) :
    field ∈ table.indexed := by
  obtain ⟨place, -, hplace⟩ := resolve_eq_ok_iff.1 hresolve
  exact List.mem_of_getElem? hplace

end Resolving

theorem length_indexed (table : ListTable) :
    table.indexed.length = StaticTable.length + table.entries.length :=
  List.length_append

end ListTable

namespace IndexSpace

variable {table : DynamicTable} {list : ListTable}

theorem lookup?_eq (hrefines : table.Refines list) (index : Nat) :
    (if index ≤ StaticTable.length then StaticTable.get? index
      else table.get? (index - StaticTable.length)) = list.lookup? index := by
  unfold ListTable.lookup? ListTable.indexed
  by_cases hzero : index = 0
  · rw [if_pos hzero, if_pos (by rw [hzero]; exact Nat.zero_le StaticTable.length),
      StaticTable.get?, if_pos hzero]
  · have hlength : StaticTable.entries.toList.length = StaticTable.length := rfl
    rw [if_neg hzero]
    by_cases hstatic : index ≤ StaticTable.length
    · rw [if_pos hstatic, StaticTable.get?, if_neg hzero,
        List.getElem?_append_left (by omega), Array.getElem?_toList]
    · have hindex : index - 1 - StaticTable.length = index - StaticTable.length - 1 := by omega
      rw [if_neg hstatic, hrefines.get?_eq, ListTable.get?, if_neg (by omega),
        List.getElem?_append_right (by omega), hlength, hindex]

theorem resolve_eq (hrefines : table.Refines list) (index : Nat) :
    resolve table index = list.resolve index := by
  have hlookup := lookup?_eq hrefines index
  cases hfield : list.lookup? index with
  | none => rw [resolve, hlookup, ListTable.resolve, hfield]
  | some field => rw [resolve, hlookup, ListTable.resolve, hfield]

/-- An index stands for an entry of one of the two tables. -/
theorem mem_of_resolve (hrefines : table.Refines list) {index : Nat} {field : Field}
    (hresolve : resolve table index = .ok field) :
    field ∈ StaticTable.entries.toList ∨ field ∈ list.entries := by
  rw [resolve_eq hrefines] at hresolve
  exact List.mem_append.1 (ListTable.mem_indexed_of_resolve hresolve)

/-! ## Lookups by content -/

variable {κ : Type} [DecidableEq κ] {key : Field → κ} {wanted : κ}

theorem findIdx?_eq_newestAge? (key : Field → κ) (entries : Array Field) (wanted : κ) :
    (entries.findIdx? fun entry ↦ key entry = wanted) = newestAge? key entries.toList wanted := by
  cases entries with
  | mk entries => rw [List.findIdx?_toArray, newestAge?]

/-- The index refers to a field with the key that was looked for. -/
def Indicates (list : ListTable) (key : Field → κ) (wanted : κ) (index : Nat) : Prop :=
  index ≤ list.indexed.length ∧ ∃ field, list.resolve index = .ok field ∧ key field = wanted

theorem indicates_static (list : ListTable) {age : Nat}
    (hage : newestAge? key StaticTable.entries.toList wanted = some age) :
    Indicates list key wanted (age + 1) := by
  obtain ⟨field, hfield, hkey⟩ := exists_getElem?_of_newestAge? hage
  have hlength := lt_length_of_newestAge? hage
  have hplace : list.indexed[age]? = some field := by
    rw [ListTable.indexed, List.getElem?_append_left hlength, hfield]
  have hbound := (List.getElem?_eq_some_iff.1 hplace).1
  exact ⟨hbound, field, ListTable.resolve_succ hplace, hkey⟩

theorem indicates_dynamic {age : Nat} (hage : newestAge? key list.entries wanted = some age) :
    Indicates list key wanted (age + 1 + StaticTable.length) := by
  obtain ⟨field, hfield, hkey⟩ := exists_getElem?_of_newestAge? hage
  have hlength : StaticTable.entries.toList.length = StaticTable.length := rfl
  have hplace : list.indexed[age + StaticTable.length]? = some field := by
    rw [ListTable.indexed, List.getElem?_append_right (by omega), hlength, Nat.add_sub_cancel,
      hfield]
  have hbound := (List.getElem?_eq_some_iff.1 hplace).1
  rw [Nat.add_right_comm]
  exact ⟨hbound, field, ListTable.resolve_succ hplace, hkey⟩

theorem indicates_static_find? (list : ListTable) {field : Field} {index : Nat}
    (hfind : StaticTable.find? field = some index) : Indicates list id field index := by
  obtain ⟨age, hage, rfl⟩ := Option.map_eq_some_iff.1 hfind
  exact indicates_static list ((findIdx?_eq_newestAge? id _ field).symm.trans hage)

theorem indicates_static_findName? (list : ListTable) {name : Octets} {index : Nat}
    (hfind : StaticTable.findName? name = some index) : Indicates list Field.name name index := by
  obtain ⟨age, hage, rfl⟩ := Option.map_eq_some_iff.1 hfind
  exact indicates_static list ((findIdx?_eq_newestAge? Field.name _ name).symm.trans hage)

theorem indicates_find? (hrefines : table.Refines list) {field : Field} {index : Nat}
    (hfind : find? table field = some index) : Indicates list id field index := by
  rw [find?, hrefines.find?_eq, Option.map_map] at hfind
  rcases Option.or_eq_some_iff.1 hfind with hdynamic | ⟨-, hstatic⟩
  · obtain ⟨age, hage, rfl⟩ := Option.map_eq_some_iff.1 hdynamic
    exact indicates_dynamic hage
  · exact indicates_static_find? list hstatic

theorem indicates_findName? (hrefines : table.Refines list) {name : Octets} {index : Nat}
    (hfind : findName? table name = some index) : Indicates list Field.name name index := by
  rw [findName?, hrefines.findName?_eq, Option.map_map] at hfind
  rcases Option.or_eq_some_iff.1 hfind with hstatic | ⟨-, hdynamic⟩
  · exact indicates_static_findName? list hstatic
  · obtain ⟨age, hage, rfl⟩ := Option.map_eq_some_iff.1 hdynamic
    exact indicates_dynamic hage

end IndexSpace

end HeaderCompression.Table
