import HeaderCompression.Proofs.Wire.StringLiteral
import HeaderCompression.Wire.HeaderRepresentation

/-!
# The grammar of header blocks

A representation is recognised by the bits that it begins with, which also tell how many low bits
of the first octet belong to its index or capacity. A header block is a concatenation of
representations. Nothing here refers to a table: an index is as good as any other.
-/

namespace HeaderCompression.Wire

open Octets

/-! ## Readers -/

/-- What the first bits announce, and the width of the index or capacity that follows them. -/
def Opening.ofBits : Bits → Opening × Nat
  | true :: _ => (.indexed, 7)
  | false :: true :: _ => (.literal .incremental, 6)
  | false :: false :: true :: _ => (.sizeUpdate, 5)
  | false :: false :: false :: true :: _ => (.literal .never, 4)
  | _ => (.literal .without, 4)

/-- Index zero stands for no index and is followed by the name itself. -/
def LiteralName.readAfter (index : Nat) (octets : Octets) : Reading LiteralName :=
  if index = 0 then (StringLiteral.read octets).map .literal
  else .complete (.indexed index) octets

namespace HeaderRepresentation

/-- What follows the index or capacity of a representation. -/
def readAfter (opening : Opening) (value : Nat) (octets : Octets) :
    Reading HeaderRepresentation :=
  match opening with
  | .indexed => .complete (.indexed value) octets
  | .literal indexing =>
    (LiteralName.readAfter value octets).andThen fun name rest ↦
      (StringLiteral.read rest).map (.literal indexing name)
  | .sizeUpdate => .complete (.sizeUpdate value) octets

/-- A whole representation. -/
def read : Octets → Reading HeaderRepresentation
  | [] => .incomplete
  | octet :: rest =>
    let opening := Opening.ofBits (Bits.ofNat 8 octet.toNat)
    (PrefixedInteger.read opening.2 (octet :: rest)).andThen (readAfter opening.1)

end HeaderRepresentation

/-- The octets are those of one representation. -/
def IsRepresentation (octets : Octets) : Prop :=
  ∃ representation, HeaderRepresentation.read octets = .complete representation []

/-- The octets are those of some representations, one after the other. -/
def IsBlock (octets : Octets) : Prop :=
  ∃ parts : List Octets, (∀ part ∈ parts, IsRepresentation part) ∧ octets = parts.flatten

/-! ## Prefixwise reading -/

theorem LiteralName.prefixwise_readAfter (index : Nat) : Prefixwise (readAfter index) := by
  unfold readAfter
  split
  · exact StringLiteral.prefixwise_read.map LiteralName.literal
  · exact Prefixwise.ofExcept (.ok (LiteralName.indexed index))

namespace HeaderRepresentation

theorem prefixwise_readAfter (opening : Opening) (value : Nat) :
    Prefixwise (readAfter opening value) := by
  cases opening with
  | indexed => exact Prefixwise.ofExcept (.ok (indexed value))
  | sizeUpdate => exact Prefixwise.ofExcept (.ok (sizeUpdate value))
  | literal indexing =>
    exact (LiteralName.prefixwise_readAfter value).andThen fun name ↦
      StringLiteral.prefixwise_read.map (literal indexing name)

theorem prefixwise_read : Prefixwise read :=
  .ofFirst
    (fun octet ↦
      (PrefixedInteger.prefixwise_read (Opening.ofBits (Bits.ofNat 8 octet.toNat)).2).andThen
        (prefixwise_readAfter _))
    (fun _ ↦ rfl) rfl fun _ _ ↦ rfl

end HeaderRepresentation

/-! ## Blocks -/

theorem isBlock_nil : IsBlock [] :=
  ⟨[], by simp, rfl⟩

/-- The first representation of a block can be read off, and a block follows it. -/
theorem IsBlock.exists_read {octets : Octets} (hblock : IsBlock octets) (hne : octets ≠ []) :
    ∃ representation rest, HeaderRepresentation.read octets = .complete representation rest ∧
      IsBlock rest := by
  obtain ⟨parts, hparts, rfl⟩ := hblock
  cases parts with
  | nil => exact absurd rfl hne
  | cons part parts =>
    obtain ⟨representation, hread⟩ := hparts part List.mem_cons_self
    have happend := HeaderRepresentation.prefixwise_read.append (.ok representation) hread
      parts.flatten
    refine ⟨representation, parts.flatten, happend, parts, fun other hother ↦ ?_, rfl⟩
    exact hparts other (List.mem_cons_of_mem part hother)

theorem isBlock_of_read {octets rest : Octets} {representation : HeaderRepresentation}
    (hread : HeaderRepresentation.read octets = .complete representation rest)
    (hrest : IsBlock rest) : IsBlock octets := by
  obtain ⟨taken, rfl, htaken⟩ :=
    HeaderRepresentation.prefixwise_read.decided (.ok representation) hread
  obtain ⟨parts, hparts, rfl⟩ := hrest
  refine ⟨taken :: parts, fun part hpart ↦ ?_, rfl⟩
  rcases List.mem_cons.1 hpart with rfl | hother
  · exact ⟨representation, by simpa using htaken []⟩
  · exact hparts part hother

/-! ## Round trip -/

/-- The octets of a representation are short enough to be read back. -/
def HeaderRepresentation.Readable (mode : HuffmanMode) : HeaderRepresentation → Prop
  | indexed index => index < PrefixedInteger.continuationValues
  | literal _ (.indexed index) value =>
    index ≠ 0 ∧ index < PrefixedInteger.continuationValues ∧
      StringLiteral.payloadLength mode value < PrefixedInteger.continuationValues
  | literal _ (.literal name) value =>
    StringLiteral.payloadLength mode name < PrefixedInteger.continuationValues ∧
      StringLiteral.payloadLength mode value < PrefixedInteger.continuationValues
  | sizeUpdate capacity => capacity < 31 + PrefixedInteger.continuationValues

theorem Opening.ofBits_mask (opening : Opening) {low : Nat}
    (hlow : low < Bits.values opening.width) :
    ofBits (Bits.ofNat 8 (opening.mask ||| UInt8.ofNat low).toNat) = (opening, opening.width) := by
  have hall : ∀ opening ∈ [indexed, literal .incremental, literal .without, literal .never,
      sizeUpdate], ∀ low < Bits.values opening.width,
      ofBits (Bits.ofNat 8 (opening.mask ||| UInt8.ofNat low).toNat) =
        (opening, opening.width) := by
    decide +kernel
  refine hall opening ?_ low hlow
  rcases opening with - | (- | - | -) | - <;> simp

namespace HeaderRepresentation

theorem read_encode_append (opening : Opening) {value : Nat}
    (hvalue : value < Bits.ones opening.width + PrefixedInteger.continuationValues)
    (rest : Octets) :
    read (PrefixedInteger.encode opening.mask opening.width value ++ rest) =
      readAfter opening value rest := by
  have hwidth : opening.width ≤ 8 := by
    rcases opening with - | (- | - | -) | - <;> decide
  have hmask : opening.mask.toNat % Bits.values opening.width = 0 := by
    rcases opening with - | (- | - | -) | - <;> decide
  have hread := PrefixedInteger.read_encode hwidth hmask hvalue rest
  obtain ⟨low, tail, hlow, hencode⟩ :=
    PrefixedInteger.exists_encode_eq_cons opening.mask opening.width value
  rw [hencode, List.cons_append] at hread ⊢
  rw [read, Opening.ofBits_mask opening hlow]
  dsimp only
  rw [hread, Reading.andThen_complete]

theorem read_encode {mode : HuffmanMode} {representation : HeaderRepresentation}
    (hreadable : representation.Readable mode) (rest : Octets) :
    read (representation.encode mode ++ rest) = .complete representation rest := by
  cases representation with
  | indexed index =>
    rw [encode, read_encode_append .indexed (Nat.lt_add_left _ hreadable), readAfter]
  | sizeUpdate capacity =>
    rw [encode, read_encode_append .sizeUpdate hreadable, readAfter]
  | literal indexing name value =>
    cases name with
    | indexed index =>
      obtain ⟨hindex, hsmall, hvalue⟩ := hreadable
      rw [encode, LiteralName.encode, List.append_assoc,
        read_encode_append (.literal indexing) (Nat.lt_add_left _ hsmall), readAfter,
        LiteralName.readAfter, if_neg hindex, Reading.andThen_complete,
        StringLiteral.read_encode (Nat.lt_add_left _ hvalue), Reading.map_complete]
    | literal name =>
      obtain ⟨hname, hvalue⟩ := hreadable
      have hzero : 0 < Bits.ones (Opening.literal indexing).width +
          PrefixedInteger.continuationValues := Nat.add_pos_right _ (by decide)
      rw [encode, LiteralName.encode, List.append_assoc, List.append_assoc,
        read_encode_append (.literal indexing) hzero, readAfter, LiteralName.readAfter, if_pos rfl,
        StringLiteral.read_encode (Nat.lt_add_left _ hname), Reading.map_complete,
        Reading.andThen_complete, StringLiteral.read_encode (Nat.lt_add_left _ hvalue),
        Reading.map_complete]

end HeaderRepresentation

end HeaderCompression.Wire
