import HeaderCompression.Encoder
import HeaderCompression.Proofs.Table.Refinement

/-!
# Reachable encoders

Whatever headers an encoder writes and whatever is asked of it in between, its table stays well
formed. Headers leave the capacity of the table as it is.
-/

namespace HeaderCompression.Encoder

open Table Wire

variable {encoder : Encoder}

/-! ## Headers and size changes -/

theorem wellFormed_tableAfter {table : DynamicTable} (htable : table.WellFormed) (field : Field)
    (representation : HeaderRepresentation) :
    (tableAfter table field representation).WellFormed := by
  unfold tableAfter
  split
  · exact htable.add field
  · exact htable

theorem capacity_tableAfter {table : DynamicTable} (htable : table.WellFormed) (field : Field)
    (representation : HeaderRepresentation) :
    (tableAfter table field representation).capacity = table.capacity := by
  unfold tableAfter
  split
  · have hlisting := congrArg ListTable.capacity (htable.listing_add field)
    rw [ListTable.capacity_add] at hlisting
    exact hlisting
  · rfl

theorem capacity_encode (htable : encoder.table.WellFormed) (headers : List Header) :
    (encoder.encode headers).2.table.capacity = encoder.table.capacity := by
  induction headers generalizing encoder with
  | nil => rfl
  | cons header headers hheaders =>
    have hfirst := capacity_tableAfter htable header.field (encoder.represent header)
    exact (hheaders (wellFormed_tableAfter htable header.field _)).trans hfirst

theorem capacity_resize (htable : encoder.table.WellFormed) (capacity : Nat) :
    (encoder.resize capacity).2.table.capacity = capacity :=
  congrArg ListTable.capacity (htable.listing_setCapacity capacity)

/-! ## Reachable encoders -/

/-- The encoders that an application can come to hold. -/
inductive Reachable : Encoder → Prop
  | ofSettings (settings : EncoderSettings) : Reachable (.ofSettings settings)
  | encodeHeader {encoder : Encoder} (header : Header) (hencoder : Reachable encoder) :
    Reachable (encoder.encodeHeader header).2
  | resize {encoder : Encoder} (capacity : Nat) (hencoder : Reachable encoder) :
    Reachable (encoder.resize capacity).2
  | setPolicy {encoder : Encoder} (policy : EvictionPolicy) (hencoder : Reachable encoder) :
    Reachable (encoder.setPolicy policy)

theorem Reachable.encode (hreachable : encoder.Reachable) (headers : List Header) :
    (encoder.encode headers).2.Reachable := by
  induction headers generalizing encoder with
  | nil => exact hreachable
  | cons header headers hheaders => exact hheaders (hreachable.encodeHeader header)

theorem Reachable.wellFormed (hreachable : encoder.Reachable) : encoder.table.WellFormed := by
  induction hreachable with
  | ofSettings settings => exact DynamicTable.wellFormed_ofCapacity _ _
  | encodeHeader header _ htable => exact wellFormed_tableAfter htable header.field _
  | resize capacity _ htable => exact htable.setCapacity capacity
  | setPolicy policy _ htable => exact htable.setPolicy policy

end HeaderCompression.Encoder
