import HeaderCompression.Proofs.Encoder.Validity
import HeaderCompression.Proofs.Table.Likeness

/-!
# What headers are sent as

Headers are sent as one representation each, none of which is a size update. The representations
depend on what the table of the encoder holds, and not on how it came to hold it: encoders whose
tables look alike write the same octets, and their tables look alike afterwards.
-/

namespace HeaderCompression.Encoder

open Octets Table Wire

variable {encoder other : Encoder}

/-! ## Representations -/

/-- The representations that headers are sent as, in order. -/
def representations (encoder : Encoder) : List Header → List HeaderRepresentation
  | [] => []
  | header :: headers =>
    encoder.represent header :: (encoder.encodeHeader header).2.representations headers

theorem fst_encode_eq (encoder : Encoder) (headers : List Header) :
    (encoder.encode headers).1 =
      (encoder.representations headers).flatMap (HeaderRepresentation.encode encoder.huffman) := by
  induction headers generalizing encoder with
  | nil => rfl
  | cons header headers hheaders =>
    have hrest := hheaders (encoder.encodeHeader header).2
    rw [representations, List.flatMap_cons, encode, hrest]
    rfl

theorem represent_ne_sizeUpdate (encoder : Encoder) (header : Header) (capacity : Nat) :
    encoder.represent header ≠ .sizeUpdate capacity := by
  unfold represent literal
  dsimp only
  split
  · simp
  · split
    · split <;> simp
    · split
      · simp
      · split <;> simp

theorem ne_sizeUpdate_of_mem_representations {headers : List Header}
    {representation : HeaderRepresentation}
    (hrepresentation : representation ∈ encoder.representations headers) (capacity : Nat) :
    representation ≠ .sizeUpdate capacity := by
  induction headers generalizing encoder with
  | nil => cases hrepresentation
  | cons header headers hheaders =>
    rcases List.mem_cons.1 hrepresentation with rfl | hlater
    · exact represent_ne_sizeUpdate encoder header capacity
    · exact hheaders hlater

/-! ## Encoders with tables that look alike -/

theorem tableAfter_alike {table otherTable : DynamicTable} (halike : table.Alike otherTable)
    (field : Field) (representation : HeaderRepresentation) :
    (tableAfter table field representation).Alike (tableAfter otherTable field representation) := by
  unfold tableAfter
  split
  · exact halike.add field
  · exact halike

structure Alike (encoder other : Encoder) : Prop where
  table : encoder.table.Alike other.table
  useIndexing_eq : encoder.useIndexing = other.useIndexing
  huffman_eq : encoder.huffman = other.huffman

namespace Alike

theorem represent_eq (halike : encoder.Alike other) (header : Header) :
    encoder.represent header = other.represent header := by
  unfold represent
  simp only [halike.table.capacity_eq, halike.table.find?_eq, halike.table.findName?_eq,
    halike.useIndexing_eq]

theorem encodeHeader (halike : encoder.Alike other) (header : Header) :
    (encoder.encodeHeader header).1 = (other.encodeHeader header).1 ∧
      (encoder.encodeHeader header).2.Alike (other.encodeHeader header).2 := by
  unfold Encoder.encodeHeader
  rw [halike.represent_eq header, halike.huffman_eq]
  exact ⟨rfl, tableAfter_alike halike.table header.field _, halike.useIndexing_eq, rfl⟩

theorem encode (halike : encoder.Alike other) (headers : List Header) :
    (encoder.encode headers).1 = (other.encode headers).1 ∧
      (encoder.encode headers).2.Alike (other.encode headers).2 := by
  induction headers generalizing encoder other with
  | nil => exact ⟨rfl, halike⟩
  | cons header headers hheaders =>
    obtain ⟨hfirst, hnext⟩ := halike.encodeHeader header
    obtain ⟨hrest, hlast⟩ := hheaders hnext
    refine ⟨?_, hlast⟩
    rw [Encoder.encode, Encoder.encode, hfirst, hrest]

end Alike

end HeaderCompression.Encoder
