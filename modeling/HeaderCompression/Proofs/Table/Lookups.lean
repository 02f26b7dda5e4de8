import HeaderCompression.Proofs.Table.History
import HeaderCompression.Proofs.Table.IndexSpace
import Mathlib.Data.List.TakeWhile
import Mathlib.Data.Set.Basic

/-!
# Lookups in both tables

A field is looked for in the dynamic table first, a name in the static table first. Whatever has
happened to the dynamic table, a lookup finds the least index of the preferred table that refers to
what was looked for, or else the least one of the other table, and it finds nothing only if no index
does. In the static table a field has to be compared with the entries of its name alone, since they
stand next to each other.
-/

namespace HeaderCompression.Table

/-! ## Entries that share a name -/

section Sharing

variable {entries : List Field} {field : Field} {first : Nat}

theorem findIdx?_eq_of_forall {test other : Field → Bool}
    (hsame : ∀ entry ∈ entries, test entry = other entry) :
    entries.findIdx? test = entries.findIdx? other := by
  induction entries with
  | nil => rfl
  | cons entry entries hentries =>
    have hrest := hentries fun later hlater ↦ hsame later (List.mem_cons_of_mem entry hlater)
    rw [List.findIdx?_cons, List.findIdx?_cons, hsame entry List.mem_cons_self, hrest]

/-- A field can only be among the entries that share its name, from the first of them on. -/
theorem findIdx?_eq_of_sharing
    (hfirst : (entries.findIdx? fun entry ↦ entry.name = field.name) = some first)
    (hlater : ∀ entry ∈ (entries.drop first).dropWhile (fun entry ↦ entry.name = field.name),
      entry.name ≠ field.name) :
    (entries.findIdx? fun entry ↦ entry = field) =
      (((entries.drop first).takeWhile fun entry ↦ entry.name = field.name).findIdx?
        fun entry ↦ entry.value = field.value).map (first + ·) := by
  obtain ⟨hlength, -, hearlier⟩ := List.findIdx?_eq_some_iff_getElem.1 hfirst
  have hbefore : ((entries.take first).findIdx? fun entry ↦ entry = field) = none := by
    apply List.findIdx?_eq_none_iff.2
    intro entry hentry
    obtain ⟨place, hplace, rfl⟩ := List.mem_take_iff_getElem.1 hentry
    have hname := hearlier place (by omega)
    apply decide_eq_false
    intro hfield
    simp [hfield] at hname
  have hsharing : ((entries.drop first).takeWhile fun entry ↦ entry.name = field.name).findIdx?
        (fun entry ↦ entry = field) =
      ((entries.drop first).takeWhile fun entry ↦ entry.name = field.name).findIdx?
        fun entry ↦ entry.value = field.value := by
    apply findIdx?_eq_of_forall
    intro entry hentry
    have hname : entry.name = field.name := by simpa using List.mem_takeWhile_imp hentry
    obtain ⟨name, value⟩ := entry
    obtain ⟨wanted, wantedValue⟩ := field
    simp_all
  have hafter : ((entries.drop first).dropWhile fun entry ↦ entry.name = field.name).findIdx?
      (fun entry ↦ entry = field) = none := by
    apply List.findIdx?_eq_none_iff.2
    intro entry hentry
    apply decide_eq_false
    intro hfield
    exact hlater entry hentry (congrArg Field.name hfield)
  calc
    (entries.findIdx? fun entry ↦ entry = field)
      = (entries.take first ++
          (((entries.drop first).takeWhile fun entry ↦ entry.name = field.name) ++
            (entries.drop first).dropWhile fun entry ↦ entry.name = field.name)).findIdx?
              fun entry ↦ entry = field := by
        rw [List.takeWhile_append_dropWhile, List.take_append_drop]
    _ = (((entries.drop first).takeWhile fun entry ↦ entry.name = field.name).findIdx?
          fun entry ↦ entry = field).map (first + ·) := by
        rw [List.findIdx?_append, List.findIdx?_append, hbefore, hafter, Option.map_none,
          Option.or_none, Option.none_or, List.length_take_of_le (Nat.le_of_lt hlength)]
        simp only [Nat.add_comm]
    _ = _ := by rw [hsharing]

end Sharing

namespace StaticTable

/-- The index of a field, looked for among the entries of its name alone. -/
def scan? (field : Field) : Option Nat :=
  (findName? field.name).bind fun index ↦
    (((entries.toList.drop (index - 1)).takeWhile fun entry ↦ entry.name = field.name).findIdx?
      fun entry ↦ entry.value = field.value).map (index + ·)

theorem findName?_eq (name : Octets) :
    findName? name = (entries.toList.findIdx? fun entry ↦ entry.name = name).map (· + 1) :=
  congrArg (Option.map (· + 1)) (IndexSpace.findIdx?_eq_newestAge? Field.name entries name)

theorem find?_eq (field : Field) :
    find? field = (entries.toList.findIdx? fun entry ↦ entry = field).map (· + 1) :=
  congrArg (Option.map (· + 1)) (IndexSpace.findIdx?_eq_newestAge? id entries field)

/-- Entries that share a name stand next to each other. -/
theorem name_ne_of_mem_dropWhile {name : Octets} {first : Nat}
    (hfirst : (entries.toList.findIdx? fun entry ↦ entry.name = name) = some first) :
    ∀ entry ∈ (entries.toList.drop first).dropWhile (fun entry ↦ entry.name = name),
      entry.name ≠ name := by
  have hall : ∀ sample ∈ entries.toList,
      ∀ first ∈ entries.toList.findIdx? (fun entry ↦ entry.name = sample.name),
        ∀ entry ∈ (entries.toList.drop first).dropWhile (fun entry ↦ entry.name = sample.name),
          entry.name ≠ sample.name := by
    decide +kernel
  obtain ⟨sample, hsample, rfl⟩ := exists_getElem?_of_newestAge? hfirst
  exact hall sample (List.mem_of_getElem? hsample) first hfirst

theorem scan?_eq_find? (field : Field) : scan? field = find? field := by
  rw [scan?, findName?_eq, find?_eq]
  cases hfirst : entries.toList.findIdx? fun entry ↦ entry.name = field.name with
  | none =>
    have habsent : (entries.toList.findIdx? fun entry ↦ entry = field) = none := by
      rw [List.findIdx?_eq_none_iff] at hfirst ⊢
      intro entry hentry
      have hname := of_decide_eq_false (hfirst entry hentry)
      apply decide_eq_false
      intro hfield
      exact hname (congrArg Field.name hfield)
    rw [habsent, Option.map_none, Option.bind_none]
  | some first =>
    rw [findIdx?_eq_of_sharing hfirst (name_ne_of_mem_dropWhile hfirst), Option.map_some,
      Option.bind_some, Nat.add_sub_cancel, Option.map_map]
    congr 1
    funext place
    exact Nat.add_right_comm first 1 place

end StaticTable

/-! ## Two ranges of indexes -/

/-- The least of the indexes, or nothing if there are none. -/
def IsLeastOf (indexes : Set Nat) : Option Nat → Prop
  | some index => IsLeast indexes index
  | none => indexes = ∅

/-- The least of the preferred indexes, or else the least of the others, or nothing if there are
none of either kind. -/
def IsFirstOf (preferred others : Set Nat) : Option Nat → Prop
  | some index => IsLeast preferred index ∨ preferred = ∅ ∧ IsLeast others index
  | none => preferred = ∅ ∧ others = ∅

theorem isFirstOf_or {preferred others : Set Nat} {found? other? : Option Nat}
    (hfound : IsLeastOf preferred found?) (hother : IsLeastOf others other?) :
    IsFirstOf preferred others (found?.or other?) := by
  cases found? with
  | some index =>
    left
    exact hfound
  | none =>
    rw [Option.none_or]
    cases other? with
    | none => exact ⟨hfound, hother⟩
    | some index =>
      right
      exact ⟨hfound, hother⟩

section Newest

variable {κ : Type} [DecidableEq κ] {key : Field → κ} {wanted : κ} {entries : List Field}

/-- The entries of a list have consecutive indexes, and the newest of them has the least one. -/
theorem isLeastOf_newestAge? (offset : Nat) {indexes : Set Nat}
    (hindexes : ∀ index, index ∈ indexes ↔
      ∃ age field, index = age + 1 + offset ∧ entries[age]? = some field ∧ key field = wanted) :
    IsLeastOf indexes ((newestAge? key entries wanted).map (· + 1 + offset)) := by
  cases hage : newestAge? key entries wanted with
  | none =>
    rw [newestAge?_eq_none_iff] at hage
    apply Set.eq_empty_iff_forall_notMem.2
    intro index hindex
    obtain ⟨age, field, -, hfield, hkey⟩ := (hindexes index).1 hindex
    exact hage field (List.mem_of_getElem? hfield) hkey
  | some age =>
    obtain ⟨⟨field, hfield, hkey⟩, hleast⟩ := newestAge?_eq_some_iff.1 hage
    constructor
    · exact (hindexes _).2 ⟨age, field, rfl, hfield, hkey⟩
    · intro index hindex
      obtain ⟨other, otherField, rfl, hother, hotherKey⟩ := (hindexes index).1 hindex
      have hle := hleast other otherField hother hotherKey
      exact Nat.add_le_add_right (Nat.succ_le_succ hle) offset

end Newest

namespace ListTable

variable {table : ListTable} {index : Nat} {field : Field}

theorem lookup?_eq_none_iff :
    table.lookup? index = none ↔
      ¬(1 ≤ index ∧ index ≤ StaticTable.length + table.entries.length) := by
  have hlength := table.length_indexed
  unfold lookup?
  split
  · simp_all
  · rw [List.getElem?_eq_none_iff]
    omega

/-- The indexes from 1 to the number of entries in both tables refer to fields, and no others. -/
theorem resolve_in_range (table : ListTable) (index : Nat) :
    (1 ≤ index ∧ index ≤ StaticTable.length + table.entries.length →
      ∃ field, table.resolve index = .ok field) ∧
    (¬(1 ≤ index ∧ index ≤ StaticTable.length + table.entries.length) →
      table.resolve index = .error (.illegalIndex index)) := by
  rw [← lookup?_eq_none_iff]
  unfold resolve
  cases hlookup : table.lookup? index with
  | none =>
    have hrange := lookup?_eq_none_iff.1 hlookup
    exact ⟨fun hindex ↦ absurd hindex hrange, fun _ ↦ rfl⟩
  | some field => exact ⟨fun _ ↦ ⟨field, rfl⟩, fun hnone ↦ by cases hnone⟩

theorem resolve_static_iff :
    index ≤ StaticTable.length ∧ table.resolve index = .ok field ↔
      ∃ place, index = place + 1 ∧ StaticTable.entries.toList[place]? = some field := by
  have hlength : StaticTable.entries.toList.length = StaticTable.length := rfl
  rw [resolve_eq_ok_iff]
  constructor
  · rintro ⟨hstatic, place, rfl, hfield⟩
    rw [indexed, List.getElem?_append_left (by omega)] at hfield
    exact ⟨place, rfl, hfield⟩
  · rintro ⟨place, rfl, hfield⟩
    have hbound := (List.getElem?_eq_some_iff.1 hfield).1
    refine ⟨by omega, place, rfl, ?_⟩
    rw [indexed, List.getElem?_append_left hbound, hfield]

theorem resolve_dynamic_iff :
    StaticTable.length < index ∧ table.resolve index = .ok field ↔
      ∃ age, index = age + 1 + StaticTable.length ∧ table.entries[age]? = some field := by
  have hlength : StaticTable.entries.toList.length = StaticTable.length := rfl
  rw [resolve_eq_ok_iff]
  constructor
  · rintro ⟨hdynamic, place, rfl, hfield⟩
    rw [indexed, List.getElem?_append_right (by omega), hlength] at hfield
    exact ⟨place - StaticTable.length, by omega, hfield⟩
  · rintro ⟨age, rfl, hfield⟩
    refine ⟨by omega, age + StaticTable.length, by omega, ?_⟩
    rw [indexed, List.getElem?_append_right (by omega), hlength, Nat.add_sub_cancel, hfield]

end ListTable

/-! ## Both lookups -/

namespace IndexSpace

variable {table : DynamicTable} {list : ListTable}

section Keys

variable {κ : Type} [DecidableEq κ]

theorem isLeastOf_static (list : ListTable) (key : Field → κ) (wanted : κ) :
    IsLeastOf
      {index | index ≤ StaticTable.length ∧ ∃ field, list.resolve index = .ok field ∧
        key field = wanted}
      ((newestAge? key StaticTable.entries.toList wanted).map (· + 1)) := by
  apply isLeastOf_newestAge? 0
  intro index
  constructor
  · rintro ⟨hstatic, field, hresolve, hkey⟩
    obtain ⟨place, hplace, hfield⟩ := ListTable.resolve_static_iff.1 ⟨hstatic, hresolve⟩
    exact ⟨place, field, hplace, hfield, hkey⟩
  · rintro ⟨place, field, hplace, hfield, hkey⟩
    obtain ⟨hstatic, hresolve⟩ := ListTable.resolve_static_iff.2 ⟨place, hplace, hfield⟩
    exact ⟨hstatic, field, hresolve, hkey⟩

theorem isLeastOf_dynamic (list : ListTable) (key : Field → κ) (wanted : κ) :
    IsLeastOf
      {index | StaticTable.length < index ∧ ∃ field, list.resolve index = .ok field ∧
        key field = wanted}
      ((newestAge? key list.entries wanted).map (· + 1 + StaticTable.length)) := by
  apply isLeastOf_newestAge? StaticTable.length
  intro index
  constructor
  · rintro ⟨hdynamic, field, hresolve, hkey⟩
    obtain ⟨age, hage, hfield⟩ := ListTable.resolve_dynamic_iff.1 ⟨hdynamic, hresolve⟩
    exact ⟨age, field, hage, hfield, hkey⟩
  · rintro ⟨age, field, hage, hfield, hkey⟩
    obtain ⟨hdynamic, hresolve⟩ := ListTable.resolve_dynamic_iff.2 ⟨age, hage, hfield⟩
    exact ⟨hdynamic, field, hresolve, hkey⟩

end Keys

theorem isFirstOf_find? (hrefines : table.Refines list) (field : Field) :
    IsFirstOf {index | StaticTable.length < index ∧ resolve table index = .ok field}
      {index | index ≤ StaticTable.length ∧ resolve table index = .ok field}
      (find? table field) := by
  have hdynamic := isLeastOf_dynamic list id field
  have hstatic := isLeastOf_static list id field
  simp only [id_eq, exists_eq_right] at hdynamic hstatic
  rw [find?, hrefines.find?_eq, Option.map_map, StaticTable.find?_eq]
  simp only [resolve_eq hrefines]
  exact isFirstOf_or hdynamic hstatic

theorem isFirstOf_findName? (hrefines : table.Refines list) (name : Octets) :
    IsFirstOf
      {index | index ≤ StaticTable.length ∧
        ∃ field, resolve table index = .ok field ∧ field.name = name}
      {index | StaticTable.length < index ∧
        ∃ field, resolve table index = .ok field ∧ field.name = name}
      (findName? table name) := by
  rw [findName?, hrefines.findName?_eq, Option.map_map, StaticTable.findName?_eq]
  simp only [resolve_eq hrefines]
  have hstatic := isLeastOf_static list Field.name name
  have hdynamic := isLeastOf_dynamic list Field.name name
  exact isFirstOf_or hstatic hdynamic

/-- Whatever has happened to a dynamic table, exactly the indexes from 1 to the number of entries in
both tables refer to a field. A lookup of a field finds the newest entry of the dynamic table that
it is, or else the first one of the static table, and a lookup of a name the first entry of the
static table with that name, or else the newest one of the dynamic table. It is enough to look for a
field of the static table among the entries of its name. -/
theorem lookups_find_what_indexes_refer_to (capacity : Nat) (policy : EvictionPolicy)
    (operations : List Operation) :
    let table := operations.foldl DynamicTable.perform (.ofCapacity capacity policy)
    (∀ index,
      (1 ≤ index ∧ index ≤ 61 + table.length → ∃ field, resolve table index = .ok field) ∧
      (¬(1 ≤ index ∧ index ≤ 61 + table.length) →
        resolve table index = .error (.illegalIndex index))) ∧
      (∀ field, IsFirstOf {index | 61 < index ∧ resolve table index = .ok field}
        {index | index ≤ 61 ∧ resolve table index = .ok field} (find? table field)) ∧
      (∀ name, IsFirstOf
        {index | index ≤ 61 ∧ ∃ field, resolve table index = .ok field ∧ field.name = name}
        {index | 61 < index ∧ ∃ field, resolve table index = .ok field ∧ field.name = name}
        (findName? table name)) ∧
      ∀ field, StaticTable.scan? field = StaticTable.find? field := by
  intro table
  have hrefines := (DynamicTable.refines_ofCapacity capacity policy).foldl_perform operations
  refine ⟨fun index ↦ ?_, isFirstOf_find? hrefines, isFirstOf_findName? hrefines,
    StaticTable.scan?_eq_find?⟩
  rw [resolve_eq hrefines, hrefines.length_eq]
  exact ListTable.resolve_in_range _ index

end IndexSpace

end HeaderCompression.Table
