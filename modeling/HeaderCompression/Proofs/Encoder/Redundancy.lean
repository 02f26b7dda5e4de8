import HeaderCompression.Proofs.Encoder.Validity
import HeaderCompression.Proofs.Table.Lookups

/-!
# Tables without redundant entries

The encoder adds a field only if no index refers to it, and entries leave the table only at its old
end. So no field ever has two indexes, whatever the encoder has written and been asked for, and a
field that has one is sent as that index.
-/

namespace HeaderCompression

open Octets Table Wire

namespace Table

/-! ## Fields with one index -/

theorem StaticTable.nodup_entries : entries.toList.Nodup := by
  decide +kernel

namespace ListTable

variable {table other : ListTable} {field : Field} {index otherIndex : Nat}

theorem indexed_sublist (hkept : other.entries <+: table.entries) :
    other.indexed.Sublist table.indexed :=
  hkept.sublist.append_left StaticTable.entries.toList

/-- No field has two indexes, and every entry has a name. -/
structure IsIrredundant (table : ListTable) : Prop where
  nodup : table.indexed.Nodup
  name_ne_nil : ∀ entry ∈ table.entries, entry.name ≠ []

theorem isIrredundant_of_nil (hnil : table.entries = []) : table.IsIrredundant := by
  constructor
  · rw [indexed, hnil, List.append_nil]
    exact StaticTable.nodup_entries
  · rw [hnil]
    exact List.forall_mem_nil _

namespace IsIrredundant

theorem nodup_entries (htable : table.IsIrredundant) : table.entries.Nodup :=
  (List.nodup_append.1 htable.nodup).2.1

theorem notMem_static (htable : table.IsIrredundant) (hentry : field ∈ table.entries) :
    field ∉ StaticTable.entries := by
  rw [← Array.mem_toList_iff]
  intro hstatic
  exact (List.nodup_append.1 htable.nodup).2.2 field hstatic field hentry rfl

theorem index_unique (htable : table.IsIrredundant) (hindex : table.resolve index = .ok field)
    (hother : table.resolve otherIndex = .ok field) : index = otherIndex := by
  obtain ⟨place, rfl, hplace⟩ := resolve_eq_ok_iff.1 hindex
  obtain ⟨otherPlace, rfl, hotherPlace⟩ := resolve_eq_ok_iff.1 hother
  have hbound := (List.getElem?_eq_some_iff.1 hplace).1
  have hplaces : place = otherPlace :=
    (List.getElem?_inj hbound htable.nodup).1 (hplace.trans hotherPlace.symm)
  rw [hplaces]

/-- Entries may leave at the old end. -/
theorem of_isPrefix (htable : table.IsIrredundant) (hkept : other.entries <+: table.entries) :
    other.IsIrredundant := by
  constructor
  · exact htable.nodup.sublist (indexed_sublist hkept)
  · intro entry hentry
    exact htable.name_ne_nil entry (hkept.subset hentry)

/-- A field that has no index may enter. -/
theorem of_cons (htable : table.IsIrredundant) (hnew : field ∉ table.indexed)
    (hname : field.name ≠ []) (hentries : other.entries = field :: table.entries) :
    other.IsIrredundant := by
  constructor
  · have hplace : other.indexed.Perm (field :: table.indexed) := by
      rw [indexed, hentries]
      exact List.perm_middle
    exact hplace.nodup_iff.2 (List.nodup_cons.2 ⟨hnew, htable.nodup⟩)
  · rw [hentries]
    exact List.forall_mem_cons.2 ⟨hname, htable.name_ne_nil⟩

theorem add (htable : table.IsIrredundant) (hnew : field ∉ table.indexed)
    (hname : field.name ≠ []) : (table.add field).IsIrredundant := by
  obtain ⟨kept, hkept, hunchanged | hadded⟩ := table.changes_perform (.add field)
  · exact htable.of_isPrefix (hunchanged ▸ hkept)
  · have hfewer : IsIrredundant { table with entries := kept } := htable.of_isPrefix hkept
    have habsent : field ∉ indexed { table with entries := kept } :=
      fun hentry ↦ hnew ((indexed_sublist hkept).subset hentry)
    exact hfewer.of_cons habsent hname hadded

end IsIrredundant

end ListTable

namespace IndexSpace

variable {table : DynamicTable} {list : ListTable} {field : Field} {index : Nat}

theorem find?_eq_none_iff (hrefines : table.Refines list) :
    find? table field = none ↔ field ∉ list.indexed := by
  have hnewest (entries : List Field) : newestAge? id entries field = none ↔ field ∉ entries :=
    newestAge?_eq_none_iff.trans List.forall_mem_ne'
  have hstatic : StaticTable.find? field = none ↔ field ∉ StaticTable.entries.toList := by
    rw [StaticTable.find?_eq, Option.map_eq_none_iff]
    exact hnewest StaticTable.entries.toList
  rw [find?, Option.or_eq_none_iff, Option.map_eq_none_iff, hrefines.find?_eq,
    Option.map_eq_none_iff, hnewest, hstatic, ListTable.indexed, List.mem_append, not_or, and_comm]

theorem find?_of_resolve (hrefines : table.Refines list) (hlist : list.IsIrredundant)
    (hresolve : resolve table index = .ok field) : find? table field = some index := by
  rw [resolve_eq hrefines] at hresolve
  cases hfind : find? table field with
  | none =>
    have habsent := (find?_eq_none_iff hrefines).1 hfind
    exact absurd (ListTable.mem_indexed_of_resolve hresolve) habsent
  | some found =>
    obtain ⟨-, other, hfound, rfl⟩ := indicates_find? hrefines hfind
    rw [hlist.index_unique hresolve hfound]

end IndexSpace

end Table

namespace Encoder

variable {encoder : Encoder} {header : Header}

/-! ## Operations -/

/-- What can be asked of an encoder. -/
inductive Operation where
  | encodeHeader (header : Header)
  | resize (capacity : Nat)
  | setPolicy (policy : EvictionPolicy)

/-- A header that is encoded has a name. -/
def Operation.IsNamed : Operation → Prop
  | encodeHeader header => header.field.name ≠ []
  | resize _ => True
  | setPolicy _ => True

/-- The encoder after an operation. -/
def perform (encoder : Encoder) : Operation → Encoder
  | .encodeHeader header => (encoder.encodeHeader header).2
  | .resize capacity => (encoder.resize capacity).2
  | .setPolicy policy => encoder.setPolicy policy

theorem Reachable.perform (hreachable : encoder.Reachable) (operation : Operation) :
    (encoder.perform operation).Reachable := by
  cases operation with
  | encodeHeader header => exact hreachable.encodeHeader header
  | resize capacity => exact hreachable.resize capacity
  | setPolicy policy => exact hreachable.setPolicy policy

/-- Only a field that has no index is sent as a literal that enters the table. -/
theorem find?_eq_none_of_represent {name : LiteralName} {value : Octets}
    (hrepresent : encoder.represent header = .literal .incremental name value) :
    IndexSpace.find? encoder.table header.field = none := by
  cases hfind : IndexSpace.find? encoder.table header.field with
  | none => rfl
  | some index =>
    unfold represent literal at hrepresent
    dsimp only at hrepresent
    rw [hfind] at hrepresent
    split at hrepresent
    · cases hrepresent
    · split at hrepresent
      · split at hrepresent <;> cases hrepresent
      · split at hrepresent <;> cases hrepresent

theorem isIrredundant_tableAfter (htable : encoder.table.WellFormed)
    (hlisting : encoder.table.listing.IsIrredundant) (hname : header.field.name ≠ []) :
    (tableAfter encoder.table header.field (encoder.represent header)).listing.IsIrredundant := by
  unfold tableAfter
  split
  · rename_i name value hrepresent
    have habsent := (IndexSpace.find?_eq_none_iff htable.refines).1
      (find?_eq_none_of_represent hrepresent)
    rw [htable.listing_add]
    exact hlisting.add habsent hname
  · exact hlisting

theorem isIrredundant_perform (htable : encoder.table.WellFormed)
    (hlisting : encoder.table.listing.IsIrredundant) {operation : Operation}
    (hnamed : operation.IsNamed) : (encoder.perform operation).table.listing.IsIrredundant := by
  cases operation with
  | encodeHeader header => exact isIrredundant_tableAfter htable hlisting hnamed
  | resize capacity =>
    apply hlisting.of_isPrefix
    rw [perform, resize, htable.listing_setCapacity]
    exact encoder.table.listing.changes_perform (.setCapacity capacity)
  | setPolicy policy =>
    apply hlisting.of_isPrefix
    rw [perform, setPolicy, htable.listing_setPolicy]
    exact List.prefix_rfl

theorem isIrredundant_foldl_perform (hreachable : encoder.Reachable)
    (hlisting : encoder.table.listing.IsIrredundant) {operations : List Operation}
    (hnamed : ∀ operation ∈ operations, operation.IsNamed) :
    (operations.foldl perform encoder).Reachable ∧
      (operations.foldl perform encoder).table.listing.IsIrredundant := by
  induction operations generalizing encoder with
  | nil => exact ⟨hreachable, hlisting⟩
  | cons operation operations hoperations =>
    obtain ⟨hfirst, hlater⟩ := List.forall_mem_cons.1 hnamed
    exact hoperations (hreachable.perform operation)
      (isIrredundant_perform hreachable.wellFormed hlisting hfirst) hlater

/-! ## Fields that have an index -/

theorem encodeHeader_of_resolve (htable : encoder.table.WellFormed)
    (hlisting : encoder.table.listing.IsIrredundant) {field : Field} {index : Nat}
    (hresolve : IndexSpace.resolve encoder.table index = .ok field)
    (hcapacity : encoder.table.capacity ≠ 0) (hsize : field.size ≤ encoder.table.capacity) :
    encoder.encodeHeader { field } =
      ((HeaderRepresentation.indexed index).encode encoder.huffman, encoder) := by
  have hfind := IndexSpace.find?_of_resolve htable.refines hlisting hresolve
  have hrepresent : encoder.represent { field } = .indexed index := by
    unfold represent
    dsimp only
    rw [if_neg Bool.false_ne_true, if_neg hcapacity, if_neg (Nat.not_lt.2 hsize), hfind]
  rw [encodeHeader, hrepresent]
  rfl

/-- Whatever an encoder has written and been asked for, the entries of its table are distinct, none
of them is in the static table or without a name, and they fit in the capacity. So a field that an
index refers to, and that is no larger than a capacity other than zero, is sent as that index alone,
and the encoder stays as it is. -/
theorem table_has_no_redundant_entries (settings : EncoderSettings) {operations : List Operation}
    (hnamed : ∀ operation ∈ operations, operation.IsNamed) :
    let encoder := operations.foldl perform (.ofSettings settings)
    encoder.table.toList.Nodup ∧
      (∀ entry ∈ encoder.table.toList, entry ∉ StaticTable.entries ∧ entry.name ≠ []) ∧
      encoder.table.size ≤ encoder.table.capacity ∧
      ∀ index field, IndexSpace.resolve encoder.table index = .ok field →
        encoder.table.capacity ≠ 0 → field.size ≤ encoder.table.capacity →
          encoder.encodeHeader { field } =
            ((HeaderRepresentation.indexed index).encode encoder.huffman, encoder) := by
  intro encoder
  have hempty : (ofSettings settings).table.listing.IsIrredundant :=
    ListTable.isIrredundant_of_nil rfl
  obtain ⟨hreachable, hlisting⟩ :=
    isIrredundant_foldl_perform (.ofSettings settings) hempty hnamed
  have htable := hreachable.wellFormed
  refine ⟨hlisting.nodup_entries, fun entry hentry ↦ ?_, ?_, ?_⟩
  · exact ⟨hlisting.notMem_static hentry, hlisting.name_ne_nil entry hentry⟩
  · rw [htable.size_eq]
    exact htable.fits
  · intro index field hresolve hcapacity hsize
    exact encodeHeader_of_resolve htable hlisting hresolve hcapacity hsize

/-- The first field leaves for the second one and comes back. -/
theorem table_has_no_redundant_entries_of_return :
    let field : Field := ⟨[0x61], [0x31]⟩
    let operations : List Operation :=
      [.resize 40, .encodeHeader { field }, .encodeHeader { field },
        .encodeHeader { field := ⟨[0x62], [0x32]⟩ }, .setPolicy (.batched 1),
        .encodeHeader { field }]
    let encoder := operations.foldl perform (.ofSettings { })
    (∀ operation ∈ operations, operation.IsNamed) ∧ encoder.table.toList = [field] ∧
      encoder.encodeHeader { field } = ([0xbe], encoder) := by
  intro field operations encoder
  have hnamed : ∀ operation ∈ operations, operation.IsNamed := by
    simp [operations, Operation.IsNamed, field]
  obtain ⟨-, -, -, hindexed⟩ := table_has_no_redundant_entries { } hnamed
  have hentries : encoder.table.toList = [field] := by decide +kernel
  have hresolve : IndexSpace.resolve encoder.table 62 = .ok field := by decide +kernel
  have hcapacity : encoder.table.capacity ≠ 0 := by decide +kernel
  have hsize : field.size ≤ encoder.table.capacity := by decide +kernel
  exact ⟨hnamed, hentries, hindexed 62 field hresolve hcapacity hsize⟩

end Encoder

end HeaderCompression
