import HeaderCompression.Block.Writer
import HeaderCompression.Proofs.Decoder.ListDecoder
import HeaderCompression.Proofs.Encoder.Validity

/-!
# Reading back what the encoder writes

Whatever representation the encoder chooses, a list decoder with the table of the encoder takes it
for the header that it was chosen for, and does to its table what the encoder does to its own. So a
whole block is read back, and both tables are the same again.
-/

namespace HeaderCompression

open Octets Table Wire

/-! ## What can be sent -/

/-- A name is not empty, and coded strings stay within what an integer can say. -/
structure Header.IsEncodable (header : Header) : Prop where
  name_ne_nil : header.field.name ≠ []
  name_lt : header.field.name.length < Bits.values 29
  value_lt : header.field.value.length < Bits.values 29

instance (header : Header) : Decidable header.IsEncodable :=
  decidable_of_iff
    (header.field.name ≠ [] ∧ header.field.name.length < Bits.values 29 ∧
      header.field.value.length < Bits.values 29)
    ⟨fun hheader ↦ ⟨hheader.1, hheader.2.1, hheader.2.2⟩,
      fun hheader ↦ ⟨hheader.name_ne_nil, hheader.name_lt, hheader.value_lt⟩⟩

theorem Wire.StringLiteral.payloadLength_lt {mode : HuffmanMode} {text : Octets}
    (htext : text.length < Bits.values 29) :
    payloadLength mode text < PrefixedInteger.continuationValues := by
  have hpayload := payloadLength_le mode text
  have hvalues : PrefixedInteger.continuationValues = 4 * Bits.values 29 := by decide
  omega

/-! ## Single representations -/

namespace ListDecoder

variable {decoder next : ListDecoder} {header? : Option Header} {mode : HuffmanMode}
  {representation : HeaderRepresentation}

theorem decode_encode_append (hreadable : representation.Readable mode)
    (happly : decoder.apply representation = .ok (next, header?)) (rest : Octets) :
    decoder.decode (representation.encode mode ++ rest) = (next.decode rest).after header? := by
  have hread : decoder.read (representation.encode mode ++ rest) = .complete (next, header?) rest :=
    read_eq_complete_iff.2
      ⟨representation, HeaderRepresentation.read_encode hreadable rest, happly⟩
  have hne : representation.encode mode ++ rest ≠ [] := by
    intro hnil
    rw [hnil] at hread
    cases hread
  rw [decode_of_ne_nil hne, hread, finish]

theorem apply_indexed {field : Field} {index : Nat}
    (hindicates : IndexSpace.Indicates decoder.table id field index) :
    decoder.apply (.indexed index) = .ok (decoder, some { field }) := by
  obtain ⟨-, other, hresolve, rfl⟩ := hindicates
  rw [apply, hresolve]
  rfl

theorem apply_literal {field : Field} {nameIndex? : Option Nat} (indexing : Indexing)
    (hname : field.name ≠ [])
    (hindicates : ∀ index, nameIndex? = some index →
      IndexSpace.Indicates decoder.table Field.name field.name index) :
    decoder.apply (Encoder.literal indexing field nameIndex?) =
      .ok (decoder.insert indexing field, some { field, sensitive := indexing = .never }) := by
  have hnameOf : decoder.nameOf (nameIndex?.elim (.literal field.name) .indexed) =
      .ok field.name := by
    cases nameIndex? with
    | none => exact if_neg hname
    | some index =>
      obtain ⟨-, other, hresolve, hother⟩ := hindicates index rfl
      rw [Option.elim_some, nameOf, hresolve, ← hother]
      rfl
  rw [Encoder.literal, apply, hnameOf]
  rfl

theorem apply_sizeUpdate {capacity : Nat} (hcapacity : capacity ≤ decoder.tableSizeLimit) :
    decoder.apply (.sizeUpdate capacity) =
      .ok ({ decoder with table := decoder.table.setCapacity capacity }, none) := by
  rw [apply, resize, if_neg (Nat.not_lt.2 hcapacity)]
  rfl

/-- A size update that can be said and is accepted changes the capacity and nothing else. -/
theorem decode_sizeUpdate_append (mode : HuffmanMode) {capacity : Nat}
    (hcapacity : capacity ≤ decoder.tableSizeLimit) (hrange : capacity ≤ Bits.values 31 + 30)
    (rest : Octets) :
    decoder.decode ((HeaderRepresentation.sizeUpdate capacity).encode mode ++ rest) =
      decode { decoder with table := decoder.table.setCapacity capacity } rest := by
  have hreadable : (HeaderRepresentation.sizeUpdate capacity).Readable mode := by
    have hvalues : PrefixedInteger.continuationValues = Bits.values 31 := rfl
    unfold HeaderRepresentation.Readable
    omega
  exact decode_encode_append hreadable (apply_sizeUpdate hcapacity) rest

end ListDecoder

/-! ## Indexes in range -/

namespace Table.IndexSpace

variable {list : ListTable} {κ : Type} {key : Field → κ} {wanted : κ} {index : Nat}

theorem Indicates.ne_zero (hindicates : Indicates list key wanted index) : index ≠ 0 := by
  rintro rfl
  obtain ⟨-, field, hresolve, -⟩ := hindicates
  cases hresolve

/-- A table of this capacity has fewer entries than an integer can count. -/
theorem Indicates.lt_continuationValues (hindicates : Indicates list key wanted index)
    (hfits : list.Fits) (hcapacity : list.capacity ≤ Bits.values 31 + 30) :
    index < PrefixedInteger.continuationValues := by
  have hindex := hindicates.1
  have hoverhead : 32 * list.entries.length ≤ totalSize list.entries :=
    ListTable.overhead_mul_length_le list.entries
  have hlength : StaticTable.length = 61 := rfl
  have hvalues : PrefixedInteger.continuationValues = Bits.values 31 := rfl
  have hlarge : Bits.values 31 = 2147483648 := rfl
  unfold ListTable.Fits at hfits
  rw [ListTable.length_indexed] at hindex
  omega

end Table.IndexSpace

/-! ## Headers -/

namespace Encoder

/-- The list decoder that has the table of the encoder. -/
def listDecoder (encoder : Encoder) (limit : Nat) : ListDecoder :=
  ⟨encoder.table.listing, limit⟩

/-- The table of an encoder that can be read back. -/
structure Valid (encoder : Encoder) (limit : Nat) : Prop where
  table : encoder.table.WellFormed
  capacity_le : encoder.table.capacity ≤ limit
  limit_le : limit ≤ Bits.values 31 + 30

variable {encoder : Encoder} {range limit : Nat} {header : Header}

/-- The representation stands for the header, and the peer can read it. -/
def Represents (encoder : Encoder) (limit : Nat) (header : Header)
    (representation : HeaderRepresentation) : Prop :=
  representation.Readable encoder.huffman ∧
    (encoder.listDecoder limit).apply representation =
      .ok (⟨(tableAfter encoder.table header.field representation).listing, limit⟩, some header)

theorem represents_indexed (hvalid : encoder.Valid range) (hsensitive : header.sensitive = false)
    {index : Nat} (hindicates : IndexSpace.Indicates encoder.table.listing id header.field index) :
    encoder.Represents limit header (.indexed index) := by
  have hindex := hindicates.lt_continuationValues hvalid.table.fits
    (Nat.le_trans hvalid.capacity_le hvalid.limit_le)
  have happly : (encoder.listDecoder limit).apply (.indexed index) =
      .ok (encoder.listDecoder limit, some { field := header.field }) :=
    ListDecoder.apply_indexed hindicates
  have hheader : ({ field := header.field } : Header) = header := by
    rw [← hsensitive]
  rw [hheader] at happly
  exact ⟨hindex, happly⟩

theorem represents_literal (hvalid : encoder.Valid range) (hencodable : header.IsEncodable)
    (indexing : Indexing) (hsensitive : header.sensitive = decide (indexing = .never))
    {nameIndex? : Option Nat}
    (hindicates : ∀ index, nameIndex? = some index →
      IndexSpace.Indicates encoder.table.listing Field.name header.field.name index) :
    encoder.Represents limit header (literal indexing header.field nameIndex?) := by
  have happly : (encoder.listDecoder limit).apply (literal indexing header.field nameIndex?) =
      .ok ((encoder.listDecoder limit).insert indexing header.field,
        some { field := header.field, sensitive := indexing = .never }) :=
    ListDecoder.apply_literal indexing hencodable.name_ne_nil hindicates
  have hheader : { field := header.field, sensitive := decide (indexing = .never) : Header } =
      header := by
    rw [← hsensitive]
  have hlistDecoder : (encoder.listDecoder limit).insert indexing header.field =
      ⟨(tableAfter encoder.table header.field
        (literal indexing header.field nameIndex?)).listing, limit⟩ := by
    cases indexing with
    | incremental =>
      rw [literal, tableAfter, hvalid.table.listing_add]
      rfl
    | without => rfl
    | never => rfl
  rw [hheader, hlistDecoder] at happly
  refine ⟨?_, happly⟩
  have hvalue : StringLiteral.payloadLength encoder.huffman header.field.value <
      PrefixedInteger.continuationValues := StringLiteral.payloadLength_lt hencodable.value_lt
  cases nameIndex? with
  | none => exact ⟨StringLiteral.payloadLength_lt hencodable.name_lt, hvalue⟩
  | some index =>
    have hindex := hindicates index rfl
    exact ⟨hindex.ne_zero, hindex.lt_continuationValues hvalid.table.fits
      (Nat.le_trans hvalid.capacity_le hvalid.limit_le), hvalue⟩

/-- Every choice of the encoder stands for the header. -/
theorem represents_represent (hvalid : encoder.Valid range) (hencodable : header.IsEncodable) :
    encoder.Represents limit header (encoder.represent header) := by
  have hnames : ∀ index, IndexSpace.findName? encoder.table header.field.name = some index →
      IndexSpace.Indicates encoder.table.listing Field.name header.field.name index :=
    fun _ hfind ↦ IndexSpace.indicates_findName? hvalid.table.refines hfind
  unfold represent
  dsimp only
  split
  · rename_i hsensitive
    exact represents_literal hvalid hencodable .never hsensitive hnames
  · rename_i hsensitive
    have hplain : header.sensitive = false := Bool.eq_false_iff.2 hsensitive
    split
    · split
      · rename_i index hfind
        exact represents_indexed hvalid hplain (IndexSpace.indicates_static_find? _ hfind)
      · exact represents_literal hvalid hencodable .without hplain fun _ hfind ↦
          IndexSpace.indicates_static_findName? _ hfind
    · split
      · exact represents_literal hvalid hencodable .without hplain hnames
      · split
        · rename_i index hfind
          exact represents_indexed hvalid hplain
            (IndexSpace.indicates_find? hvalid.table.refines hfind)
        · have hkind : header.sensitive =
              decide ((if encoder.useIndexing then Indexing.incremental else .without) =
                .never) := by
            cases encoder.useIndexing <;> exact hplain
          exact represents_literal hvalid hencodable _ hkind hnames

/-! ## Blocks -/

theorem Valid.tableAfter (hvalid : encoder.Valid limit) (header : Header)
    (representation : HeaderRepresentation) :
    Valid { encoder with table := Encoder.tableAfter encoder.table header.field representation }
      limit := by
  refine ⟨wellFormed_tableAfter hvalid.table header.field representation, ?_, hvalid.limit_le⟩
  dsimp only
  rw [capacity_tableAfter hvalid.table]
  exact hvalid.capacity_le

theorem Valid.encode (hvalid : encoder.Valid limit) (headers : List Header) :
    (encoder.encode headers).2.Valid limit := by
  induction headers generalizing encoder with
  | nil => exact hvalid
  | cons header headers hheaders => exact hheaders (hvalid.tableAfter header _)

theorem Valid.resize (hvalid : encoder.Valid limit) {capacity : Nat}
    (hcapacity : capacity ≤ limit) : (encoder.resize capacity).2.Valid limit := by
  refine ⟨hvalid.table.setCapacity capacity, ?_, hvalid.limit_le⟩
  rw [capacity_resize hvalid.table]
  exact hcapacity

/-- The headers are read back in order, and then what follows. The largest capacity that the reader
accepts makes no difference to them. -/
theorem decode_encode_append (hvalid : encoder.Valid range) {headers : List Header}
    (hencodable : ∀ header ∈ headers, header.IsEncodable) (limit : Nat) (rest : Octets) :
    (encoder.listDecoder limit).decode ((encoder.encode headers).1 ++ rest) =
      let others := ((encoder.encode headers).2.listDecoder limit).decode rest
      { others with headers := headers ++ others.headers } := by
  induction headers generalizing encoder with
  | nil => rfl
  | cons header headers hheaders =>
    obtain ⟨hreadable, happly⟩ :=
      represents_represent hvalid (hencodable header List.mem_cons_self)
    have hnext := hheaders (hvalid.tableAfter header (encoder.represent header))
      fun other hother ↦ hencodable other (List.mem_cons_of_mem header hother)
    rw [Encoder.encode, List.append_assoc]
    have hfirst := ListDecoder.decode_encode_append hreadable happly
      (((encoder.encodeHeader header).2.encode headers).1 ++ rest)
    exact hfirst.trans (congrArg (ListDecoder.Outcome.after (some header)) hnext)

theorem decode_encode (hvalid : encoder.Valid range) {headers : List Header}
    (hencodable : ∀ header ∈ headers, header.IsEncodable) (limit : Nat) :
    (encoder.listDecoder limit).decode (encoder.encode headers).1 =
      .whole ((encoder.encode headers).2.listDecoder limit) headers := by
  have hread := decode_encode_append hvalid hencodable limit []
  rw [List.append_nil, ListDecoder.decode_nil] at hread
  dsimp only at hread
  rw [List.append_nil] at hread
  exact hread

theorem listing_resize (htable : encoder.table.WellFormed) (capacity : Nat) :
    (encoder.resize capacity).2.table.listing = encoder.table.listing.setCapacity capacity :=
  htable.listing_setCapacity capacity

/-- A size change makes the tables of both sides the same if they agree within the new size. -/
theorem decode_resize_append_of_agree (htable : encoder.table.WellFormed) {decoder : ListDecoder}
    {capacity : Nat} (hcapacity : capacity ≤ decoder.tableSizeLimit)
    (hrange : capacity ≤ Bits.values 31 + 30)
    (hagree : decoder.table.setCapacity capacity = encoder.table.listing.setCapacity capacity)
    (rest : Octets) :
    decoder.decode ((encoder.resize capacity).1 ++ rest) =
      ((encoder.resize capacity).2.listDecoder decoder.tableSizeLimit).decode rest := by
  have hresized : (encoder.resize capacity).2.listDecoder decoder.tableSizeLimit =
      { decoder with table := decoder.table.setCapacity capacity } := by
    rw [listDecoder, listing_resize htable, hagree]
  rw [hresized]
  exact ListDecoder.decode_sizeUpdate_append encoder.huffman hcapacity hrange rest

end Encoder

end HeaderCompression
