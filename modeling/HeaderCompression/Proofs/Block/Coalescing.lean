import HeaderCompression.Proofs.Block.Announcement
import HeaderCompression.Proofs.Decoder.SizeUpdates
import HeaderCompression.Proofs.Decoder.Truncation
import HeaderCompression.Proofs.Encoder.Representations

/-!
# Sizes that are put off and sizes that are not

A writer that announces the smallest and the latest of the sizes it was asked for does what an
encoder does that carries out and announces all of them: the headers are sent as the same octets,
and the tables look alike on both sides.
-/

namespace HeaderCompression

open Octets Table Wire

/-! ## Sizes that are announced -/

namespace Encoder

variable {encoder : Encoder}

/-- Carry out several size changes one by one. -/
def resizeAll (encoder : Encoder) (capacities : List Nat) : Encoder :=
  capacities.foldl (fun current capacity ↦ (current.resize capacity).2) encoder

theorem table_resizeAll (encoder : Encoder) (capacities : List Nat) :
    (encoder.resizeAll capacities).table =
      capacities.foldl DynamicTable.setCapacity encoder.table := by
  induction capacities generalizing encoder with
  | nil => rfl
  | cons capacity capacities hcapacities => exact hcapacities (encoder.resize capacity).2

theorem useIndexing_resizeAll (encoder : Encoder) (capacities : List Nat) :
    (encoder.resizeAll capacities).useIndexing = encoder.useIndexing := by
  induction capacities generalizing encoder with
  | nil => rfl
  | cons capacity capacities hcapacities => exact hcapacities (encoder.resize capacity).2

theorem huffman_resizeAll (encoder : Encoder) (capacities : List Nat) :
    (encoder.resizeAll capacities).huffman = encoder.huffman := by
  induction capacities generalizing encoder with
  | nil => rfl
  | cons capacity capacities hcapacities => exact hcapacities (encoder.resize capacity).2

end Encoder

namespace Table

variable {table : DynamicTable} {list : ListTable} {capacities : List Nat} {smallest latest : Nat}

/-- The sizes that are announced for all those that were asked for. -/
def announcedSizes (smallest latest : Nat) : List Nat :=
  if smallest < latest then [smallest, latest] else [latest]

theorem DynamicTable.Refines.foldl_setCapacity (hrefines : table.Refines list)
    (capacities : List Nat) :
    (capacities.foldl DynamicTable.setCapacity table).Refines
      (capacities.foldl ListTable.setCapacity list) := by
  induction capacities generalizing table list with
  | nil => exact hrefines
  | cons capacity capacities hcapacities => exact hcapacities (hrefines.setCapacity capacity)

theorem mem_of_mem_announcedSizes (hsmallest : capacities.min? = some smallest)
    (hlatest : capacities.getLast? = some latest) {capacity : Nat}
    (hcapacity : capacity ∈ announcedSizes smallest latest) : capacity ∈ capacities := by
  have hboth : capacity = smallest ∨ capacity = latest := by
    unfold announcedSizes at hcapacity
    split at hcapacity <;> simp_all
  rcases hboth with rfl | rfl
  · exact List.min?_mem hsmallest
  · exact List.mem_of_getLast? hlatest

/-- The smallest size and the latest one leave what all of them leave, and if they are the same,
once is enough. -/
theorem ListTable.foldl_announcedSizes (hsmallest : capacities.min? = some smallest)
    (hlatest : capacities.getLast? = some latest) (list : ListTable) :
    (announcedSizes smallest latest).foldl ListTable.setCapacity list =
      capacities.foldl ListTable.setCapacity list := by
  rw [foldl_setCapacity_eq hsmallest hlatest]
  unfold announcedSizes
  split
  · rfl
  · rename_i hstays
    exact (list.setCapacity_setCapacity (Nat.le_of_not_lt hstays)).symm

theorem DynamicTable.Refines.alike_announcedSizes {other : DynamicTable}
    (htable : table.Refines list) (hother : other.Refines list)
    (hsmallest : capacities.min? = some smallest) (hlatest : capacities.getLast? = some latest) :
    ((announcedSizes smallest latest).foldl DynamicTable.setCapacity table).Alike
      (capacities.foldl DynamicTable.setCapacity other) := by
  refine ⟨_, htable.foldl_setCapacity _, ?_⟩
  rw [ListTable.foldl_announcedSizes hsmallest hlatest]
  exact hother.foldl_setCapacity capacities

end Table

namespace Block

/-- The size updates for several sizes. -/
def sizeUpdates (mode : HuffmanMode) (capacities : List Nat) : Octets :=
  capacities.flatMap fun capacity ↦ (HeaderRepresentation.sizeUpdate capacity).encode mode

namespace Writer

variable {writer : Writer} {capacities : List Nat} {smallest latest : Nat}

/-- A writer carries out and announces the smallest and the latest size. -/
theorem announce_some_eq (encoder : Encoder) (smallest latest : Nat) :
    announce encoder (some ⟨smallest, latest⟩) =
      (sizeUpdates encoder.huffman (announcedSizes smallest latest),
        encoder.resizeAll (announcedSizes smallest latest)) := by
  unfold announce announcedSizes sizeUpdates
  by_cases hrises : smallest < latest
  · simp only [if_pos hrises, List.flatMap_cons, List.flatMap_nil, List.append_nil]
    rfl
  · simp only [if_neg hrises, List.flatMap_cons, List.flatMap_nil, List.append_nil]
    rfl

/-- The encoder that has carried out the sizes that are announced is like one that has carried out
all of them. -/
theorem resizeAll_alike {encoder : Encoder} (hreachable : encoder.Reachable)
    (hsmallest : capacities.min? = some smallest) (hlatest : capacities.getLast? = some latest) :
    (encoder.resizeAll (announcedSizes smallest latest)).Alike (encoder.resizeAll capacities) where
  table := by
    have hrefines := hreachable.wellFormed.refines
    rw [Encoder.table_resizeAll, Encoder.table_resizeAll]
    exact hrefines.alike_announcedSizes hrefines hsmallest hlatest
  useIndexing_eq := by rw [Encoder.useIndexing_resizeAll, Encoder.useIndexing_resizeAll]
  huffman_eq := by rw [Encoder.huffman_resizeAll, Encoder.huffman_resizeAll]

end Writer

namespace Reader

variable {reader : Reader} {capacities : List Nat} {smallest latest : Nat} {mode : HuffmanMode}

/-- A reader that receives nothing but size updates. -/
theorem decodeAll_sizeUpdates (hidle : reader.IsIdle)
    (hcapacities : ∀ capacity ∈ capacities,
      capacity ≤ reader.decoder.tableSizeLimit ∧ capacity ≤ Bits.values 31 + 30)
    {fragments : List Octets} (hfragments : fragments.flatten = sizeUpdates mode capacities) :
    (reader.decodeAll fragments).IsWhole ∧ (reader.decodeAll fragments).headers = [] ∧
      (reader.decodeAll fragments).reader.decoder.table =
        capacities.foldl DynamicTable.setCapacity reader.decoder.table := by
  have hreceived := Decoder.isReceivedAs_decodeAll hidle fragments
  rw [hfragments, sizeUpdates, Decoder.consume_sizeUpdates hidle.reachable.valid hidle.atBoundary
    hcapacities] at hreceived
  refine ⟨(Reception.isWhole_iff hreceived).2 ⟨rfl, rfl, hidle.atBoundary⟩,
    hreceived.headers_eq rfl, ?_⟩
  rw [hreceived.decoder_eq]

/-- The size updates that are sent do to a reader's table what all of them would do. -/
structure Settles (latest : Nat) (few many : Reception) : Prop where
  isWhole : few.IsWhole ∧ many.IsWhole
  headers_eq : few.headers = [] ∧ many.headers = []
  table : few.reader.decoder.table.Alike many.reader.decoder.table
  capacity_eq : few.reader.decoder.table.capacity = latest

theorem settles_of_sizeUpdates (hidle : reader.IsIdle)
    (hcapacities : ∀ capacity ∈ capacities,
      capacity ≤ reader.decoder.tableSizeLimit ∧ capacity ≤ Bits.values 31 + 30)
    (hsmallest : capacities.min? = some smallest) (hlatest : capacities.getLast? = some latest)
    {few many : List Octets}
    (hfew : few.flatten = sizeUpdates mode (announcedSizes smallest latest))
    (hmany : many.flatten = sizeUpdates mode capacities) :
    Settles latest (reader.decodeAll few) (reader.decodeAll many) := by
  have hrefines := hidle.reachable.valid.table.refines
  obtain ⟨hfewWhole, hfewHeaders, hfewTable⟩ := decodeAll_sizeUpdates hidle
    (fun capacity hcapacity ↦
      hcapacities capacity (mem_of_mem_announcedSizes hsmallest hlatest hcapacity)) hfew
  obtain ⟨hmanyWhole, hmanyHeaders, hmanyTable⟩ := decodeAll_sizeUpdates hidle hcapacities hmany
  have halike := hrefines.alike_announcedSizes hrefines hsmallest hlatest
  have hcapacity :
      ((announcedSizes smallest latest).foldl DynamicTable.setCapacity
        reader.decoder.table).capacity = latest := by
    rw [halike.capacity_eq, (hrefines.foldl_setCapacity capacities).capacity_eq,
      ListTable.capacity_foldl_setCapacity hlatest]
  refine ⟨⟨hfewWhole, hmanyWhole⟩, ⟨hfewHeaders, hmanyHeaders⟩, ?_, ?_⟩
  · rw [hfewTable, hmanyTable]
    exact halike
  · rw [hfewTable]
    exact hcapacity

end Reader

namespace Writer

variable {writer : Writer} {capacities : List Nat} {smallest latest : Nat}

/-- A writer that is asked for any sizes writes its next block as an encoder does that carries them
out one by one, except for the size updates in front. These are one for the smallest size, if the
latest one is larger, and one for the latest size. A reader that accepts the sizes comes to the same
table by them as by size updates for all of the sizes. -/
theorem size_changes_are_coalesced (hreachable : writer.encoder.Reachable)
    (hpending : writer.pending? = none) (hsmallest : capacities.min? = some smallest)
    (hlatest : capacities.getLast? = some latest) (headers : List Header) :
    let written := (capacities.foldl requestCapacity writer).encode headers
    let encoder := capacities.foldl (fun current capacity ↦ (current.resize capacity).2)
      writer.encoder
    let announced := if smallest < latest then [smallest, latest] else [latest]
    written.1 = sizeUpdates writer.encoder.huffman announced ++ (encoder.encode headers).1 ∧
      written.2.encoder.table.Alike (encoder.encode headers).2.table ∧
      (encoder.encode headers).1 = (encoder.representations headers).flatMap
        (HeaderRepresentation.encode writer.encoder.huffman) ∧
      (∀ representation ∈ encoder.representations headers, ∀ capacity,
        representation ≠ .sizeUpdate capacity) ∧
      ∀ reader : Reader, reader.IsIdle →
        (∀ capacity ∈ capacities,
          capacity ≤ reader.decoder.tableSizeLimit ∧ capacity ≤ Bits.values 31 + 30) →
        ∀ few many : List Octets, few.flatten = sizeUpdates writer.encoder.huffman announced →
          many.flatten = sizeUpdates writer.encoder.huffman capacities →
          Reader.Settles latest (reader.decodeAll few) (reader.decodeAll many) := by
  intro written encoder announced
  have hwritten : written =
      ((capacities.foldl requestCapacity writer).encode headers) := rfl
  have hencoder : encoder = writer.encoder.resizeAll capacities := rfl
  have halike := resizeAll_alike hreachable hsmallest hlatest
  obtain ⟨hoctets, hafter⟩ := halike.encode headers
  have hencode : written =
      (sizeUpdates writer.encoder.huffman announced ++
          ((writer.encoder.resizeAll announced).encode headers).1,
        { encoder := ((writer.encoder.resizeAll announced).encode headers).2 }) := by
    rw [hwritten, foldl_requestCapacity hpending hsmallest hlatest, Writer.encode,
      announce_some_eq]
    rfl
  have hrepresentations := encoder.fst_encode_eq headers
  rw [hencoder, Encoder.huffman_resizeAll] at hrepresentations
  refine ⟨?_, ?_, hrepresentations, fun _ ↦ Encoder.ne_sizeUpdate_of_mem_representations, ?_⟩
  · rw [hencode, hencoder, ← hoctets]
    rfl
  · rw [hencode]
    exact hafter.table
  · intro reader hidle hcapacities few many hfew hmany
    exact Reader.settles_of_sizeUpdates hidle hcapacities hsmallest hlatest hfew hmany

/-- One of two fields leaves for the second of three sizes and does not come back with the third. -/
theorem size_changes_are_coalesced_of_dip :
    let headers : List Header := [{ field := ⟨[0x61], [0x62]⟩ }, { field := ⟨[0x63], [0x64]⟩ }]
    let writer : Writer :=
      { encoder :=
          ((Encoder.ofSettings { tableCapacity := 100, useIndexing := true }).encode headers).2 }
    let reader : Reader := .ofSettings { tableSizeLimit := 100 }
    let mode := writer.encoder.huffman
    let encoder := (((writer.encoder.resize 90).2.resize 40).2.resize 70).2
    ((([90, 40, 70].foldl requestCapacity writer).encode headers).2.encoder.table.Alike
        (encoder.encode headers).2.table) ∧
      Reader.Settles 70 (reader.decodeAll [sizeUpdates mode [40, 70]])
        (reader.decodeAll [sizeUpdates mode [90], sizeUpdates mode [40, 70]]) := by
  intro headers writer reader mode encoder
  have hreachable : writer.encoder.Reachable := (Encoder.Reachable.ofSettings _).encode headers
  have hsmallest : [90, 40, 70].min? = some 40 := rfl
  have hlatest : [90, 40, 70].getLast? = some 70 := rfl
  obtain ⟨-, halike, -, -, hsettles⟩ :=
    size_changes_are_coalesced hreachable rfl hsmallest hlatest headers
  have hcapacities : ∀ capacity ∈ [90, 40, 70],
      capacity ≤ reader.decoder.tableSizeLimit ∧ capacity ≤ Bits.values 31 + 30 := by
    decide
  have hfew : [sizeUpdates mode [40, 70]].flatten = sizeUpdates mode [40, 70] :=
    List.append_nil _
  have hmany : [sizeUpdates mode [90], sizeUpdates mode [40, 70]].flatten =
      sizeUpdates mode [90, 40, 70] := by
    simp [sizeUpdates]
  exact ⟨halike, hsettles reader (Reader.isIdle_ofSettings _) hcapacities _ _ hfew hmany⟩

end Writer

end Block

end HeaderCompression
