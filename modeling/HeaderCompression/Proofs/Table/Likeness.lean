import HeaderCompression.Proofs.Table.IndexSpace

/-!
# Tables that look alike

Two dynamic tables that hold the same entries may hold them at different places of their rings and
under different numbers. Nothing that is asked of such tables tells them apart, and they stay alike
whatever is done to both.
-/

namespace HeaderCompression.Table

namespace DynamicTable

/-- Both tables amount to one list of entries with one capacity and one policy. -/
def Alike (table other : DynamicTable) : Prop :=
  ∃ list, table.Refines list ∧ other.Refines list

variable {table other : DynamicTable}

theorem WellFormed.alike (htable : table.WellFormed) (hother : other.WellFormed)
    (hlisting : table.listing = other.listing) : table.Alike other := by
  refine ⟨table.listing, htable.refines, ?_⟩
  rw [hlisting]
  exact hother.refines

namespace Alike

theorem symm (halike : table.Alike other) : other.Alike table := by
  obtain ⟨list, htable, hother⟩ := halike
  exact ⟨list, hother, htable⟩

theorem trans {third : DynamicTable} (halike : table.Alike other) (hthird : other.Alike third) :
    table.Alike third := by
  obtain ⟨list, htable, hother⟩ := halike
  obtain ⟨listed, hlisted, hthird⟩ := hthird
  obtain rfl : list = listed := hother.listing_eq.symm.trans hlisted.listing_eq
  exact ⟨list, htable, hthird⟩

/-! ## Views -/

theorem listing_eq (halike : table.Alike other) : table.listing = other.listing := by
  obtain ⟨list, htable, hother⟩ := halike
  rw [htable.listing_eq, hother.listing_eq]

theorem wellFormed (halike : table.Alike other) (hother : other.WellFormed) :
    table.WellFormed := by
  obtain ⟨list, htable, hlist⟩ := halike
  have hfits := hother.fits
  rw [hlist.listing_eq] at hfits
  exact htable.wellFormed hfits

theorem toList_eq (halike : table.Alike other) : table.toList = other.toList :=
  congrArg ListTable.entries halike.listing_eq

theorem capacity_eq (halike : table.Alike other) : table.capacity = other.capacity :=
  congrArg ListTable.capacity halike.listing_eq

theorem policy_eq (halike : table.Alike other) : table.policy = other.policy :=
  congrArg ListTable.policy halike.listing_eq

theorem size_eq (halike : table.Alike other) : table.size = other.size := by
  obtain ⟨list, htable, hother⟩ := halike
  rw [htable.size_eq, hother.size_eq]

theorem resolve_eq (halike : table.Alike other) (index : Nat) :
    IndexSpace.resolve table index = IndexSpace.resolve other index := by
  obtain ⟨list, htable, hother⟩ := halike
  rw [IndexSpace.resolve_eq htable, IndexSpace.resolve_eq hother]

theorem find?_eq (halike : table.Alike other) (field : Field) :
    IndexSpace.find? table field = IndexSpace.find? other field := by
  obtain ⟨list, htable, hother⟩ := halike
  rw [IndexSpace.find?, IndexSpace.find?, htable.find?_eq, hother.find?_eq]

theorem findName?_eq (halike : table.Alike other) (name : Octets) :
    IndexSpace.findName? table name = IndexSpace.findName? other name := by
  obtain ⟨list, htable, hother⟩ := halike
  rw [IndexSpace.findName?, IndexSpace.findName?, htable.findName?_eq, hother.findName?_eq]

/-! ## Operations -/

theorem clear (halike : table.Alike other) : table.clear.Alike other.clear := by
  obtain ⟨list, htable, hother⟩ := halike
  exact ⟨list.clear, htable.clear, hother.clear⟩

theorem add (halike : table.Alike other) (field : Field) :
    (table.add field).Alike (other.add field) := by
  obtain ⟨list, htable, hother⟩ := halike
  exact ⟨list.add field, htable.add field, hother.add field⟩

theorem setCapacity (halike : table.Alike other) (capacity : Nat) :
    (table.setCapacity capacity).Alike (other.setCapacity capacity) := by
  obtain ⟨list, htable, hother⟩ := halike
  exact ⟨list.setCapacity capacity, htable.setCapacity capacity, hother.setCapacity capacity⟩

theorem setPolicy (halike : table.Alike other) (policy : EvictionPolicy) :
    (table.setPolicy policy).Alike (other.setPolicy policy) := by
  obtain ⟨list, htable, hother⟩ := halike
  exact ⟨list.setPolicy policy, htable.setPolicy policy, hother.setPolicy policy⟩

end Alike

end DynamicTable

end HeaderCompression.Table
