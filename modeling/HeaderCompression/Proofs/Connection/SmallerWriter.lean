import HeaderCompression.Proofs.Connection.Synchronisation
import HeaderCompression.Proofs.Decoder.Coverage

/-!
# Writers with a smaller table

A writer may keep a smaller table than the reader without saying so. As long as entries leave one
at a time, its table holds the newest entries of the reader's table, so the indexes that it writes
refer to the same fields on both sides.
-/

namespace HeaderCompression.Connection

open Block Octets Table Wire

/-- Policies are not changed to any other than one entry a round. -/
def Event.IsFifo : Event → Prop
  | setPolicy policy => policy = .fifo
  | _ => True

/-- The reader has all that the writer has, and nothing is under way. -/
structure IsCovered (connection : Connection) (limit : Nat) : Prop where
  writer : connection.writer.Valid limit
  reader : connection.reader.IsIdle
  isUnlimited : Size.largest ≤ connection.reader.decoder.budget.limit
  covers :
    connection.reader.decoder.listDecoder.Covers (connection.writer.encoder.listDecoder limit)

theorem isCovered_ofSettings {capacity limit range : Nat} (hcapacity : capacity ≤ range)
    (hlimit : range ≤ limit) (hrange : range ≤ Bits.values 31 + 30) (useIndexing : Bool)
    (huffman : HuffmanMode) :
    IsCovered
      (ofSettings { tableCapacity := capacity, useIndexing, huffman }
        { listSizeLimit := Size.largest, tableSizeLimit := limit }) range where
  writer :=
    ⟨⟨DynamicTable.wellFormed_ofCapacity capacity .fifo, hcapacity, hrange⟩,
      fun _ hpending ↦ by cases hpending⟩
  reader := Reader.isIdle_ofSettings _
  isUnlimited := Nat.le_refl _
  covers := ⟨⟨List.nil_prefix, Nat.le_trans hcapacity hlimit, rfl, rfl⟩, hlimit⟩

namespace IsCovered

variable {connection : Connection} {limit : Nat} {headers : List Header}
  {cut : Octets → List Octets}

/-- A block is delivered, and the writer's table is covered again after it. -/
theorem exists_delivers (hcovered : connection.IsCovered limit)
    (hencodable : ∀ header ∈ headers, header.IsEncodable)
    (hcut : ∀ octets, (cut octets).flatten = octets) :
    ∃ next, connection.Delivers headers cut next ∧
      next.Covers ((connection.writer.encode headers).2.encoder.listDecoder limit) := by
  have hwritten := Writer.decode_encode hcovered.writer hencodable
  obtain ⟨next, hread, hnext⟩ := hcovered.covers.decode hwritten
  exact ⟨next, delivers_of_decode hcovered.reader hcovered.isUnlimited hcut hread, hnext⟩

theorem send (hcovered : connection.IsCovered limit)
    (hencodable : ∀ header ∈ headers, header.IsEncodable)
    (hcut : ∀ octets, (cut octets).flatten = octets) :
    (connection.send headers cut).2.IsCovered limit := by
  obtain ⟨next, hdelivers, hnext⟩ := hcovered.exists_delivers hencodable hcut
  refine ⟨hcovered.writer.encode headers, hdelivers.isIdle, hdelivers.isUnlimited, ?_⟩
  rw [hdelivers.listDecoder_eq]
  exact hnext

theorem requestCapacity (hcovered : connection.IsCovered limit) {capacity : Nat}
    (hcapacity : capacity ≤ limit) : (connection.requestCapacity capacity).IsCovered limit :=
  { hcovered with writer := hcovered.writer.requestCapacity hcapacity }

/-- Both policies are that already. -/
theorem setPolicy_fifo_eq_self (hcovered : connection.IsCovered limit) :
    connection.setPolicy .fifo = connection := by
  have hwriter : connection.writer.encoder.table.setPolicy .fifo =
      connection.writer.encoder.table :=
    DynamicTable.setPolicy_eq_self hcovered.covers.table.small_fifo
  have hreader : connection.reader.decoder.table.setPolicy .fifo =
      connection.reader.decoder.table :=
    DynamicTable.setPolicy_eq_self hcovered.covers.table.large_fifo
  rw [Connection.setPolicy, Writer.setPolicy, Encoder.setPolicy, Reader.setPolicy,
    Decoder.setPolicy, hwriter, hreader]

/-- One event keeps the writer's table covered. -/
theorem perform (hcovered : connection.IsCovered limit) {event : Event}
    (hadmissible : event.IsAdmissible limit) (hfifo : event.IsFifo) :
    (connection.perform event).IsCovered limit := by
  cases event with
  | send headers cut => exact hcovered.send hadmissible.1 hadmissible.2
  | requestCapacity capacity => exact hcovered.requestCapacity hadmissible
  | setPolicy policy =>
    obtain rfl : policy = .fifo := hfifo
    rw [Connection.perform, hcovered.setPolicy_fifo_eq_self]
    exact hcovered

theorem foldl_perform (hcovered : connection.IsCovered limit) {events : List Event}
    (hadmissible : ∀ event ∈ events, event.IsAdmissible limit)
    (hfifo : ∀ event ∈ events, event.IsFifo) :
    (events.foldl Connection.perform connection).IsCovered limit := by
  refine List.foldlRecOn (motive := (IsCovered · limit)) events _ hcovered ?_
  intro current hcurrent event hevent
  exact hcurrent.perform (hadmissible event hevent) (hfifo event hevent)

end IsCovered

/-- A writer with a table no larger than the reader's may say nothing about it. Whatever has
happened on the connection, the next block delivers exactly the headers that are sent, and after it
the entries of the writer are the newest ones of the reader, whose capacity is no smaller. -/
theorem send_of_smaller_writer {capacity limit : Nat} (hcapacity : capacity ≤ limit)
    (hrange : capacity ≤ Bits.values 31 + 30) (useIndexing : Bool) (huffman : HuffmanMode)
    {events : List Event}
    (hadmissible : ∀ event ∈ events, event.IsAdmissible (min limit (Bits.values 31 + 30)))
    (hfifo : ∀ event ∈ events, event.IsFifo) {headers : List Header}
    (hencodable : ∀ header ∈ headers, header.IsEncodable) {cut : Octets → List Octets}
    (hcut : ∀ octets, (cut octets).flatten = octets) :
    let connection := events.foldl perform
      (ofSettings { tableCapacity := capacity, useIndexing, huffman }
        { listSizeLimit := Size.largest, tableSizeLimit := limit })
    let received := connection.reader.decodeAll (cut (connection.writer.encode headers).1)
    let sent := connection.send headers cut
    sent.1.headers = headers ∧ sent.1.error? = none ∧ sent.1.truncated = false ∧
      received.reader.isPartial = false ∧
      sent.2.writer.encoder.table.toList <+: sent.2.reader.decoder.table.toList ∧
      sent.2.writer.encoder.table.capacity ≤ sent.2.reader.decoder.table.capacity := by
  intro connection received sent
  have hcovered : connection.IsCovered (min limit (Bits.values 31 + 30)) :=
    (isCovered_ofSettings (Nat.le_min.2 ⟨hcapacity, hrange⟩) (Nat.min_le_left _ _)
      (Nat.min_le_right _ _) useIndexing huffman).foldl_perform hadmissible hfifo
  obtain ⟨next, hdelivers, -⟩ := hcovered.exists_delivers hencodable hcut
  have htable := (hcovered.send hencodable hcut).covers.table
  exact ⟨hdelivers.headers_eq, hdelivers.error_eq, hdelivers.truncated_eq, hdelivers.isWhole.2,
    htable.entries, htable.capacity_le⟩

/-- The writer evicts a field that the reader keeps, and then asks for more than it had. -/
theorem send_of_smaller_writer_of_two_fields :
    let first : Header := { field := ⟨[0x61], [0x62, 0x63]⟩ }
    let second : Header := { field := ⟨[0x64], [0x65]⟩ }
    let events : List Event :=
      [.send [first, second] fun octets ↦ [octets], .requestCapacity 70, .setPolicy .fifo]
    let connection := events.foldl perform
      (ofSettings { tableCapacity := 64, useIndexing := true, huffman := .auto }
        { listSizeLimit := Size.largest, tableSizeLimit := 128 })
    (connection.send [second, first] fun octets ↦ [octets, []]).1.headers = [second, first] := by
  intro first second events connection
  have hboth : ∀ header ∈ [first, second], header.IsEncodable := by decide
  have hagain : ∀ header ∈ [second, first], header.IsEncodable := by decide
  have hcut : ∀ octets : Octets, [octets, []].flatten = octets := fun octets ↦
    List.append_nil octets
  have hevents : ∀ event ∈ events,
      event.IsAdmissible (min 128 (Bits.values 31 + 30)) ∧ event.IsFifo := by
    intro event hevent
    simp only [events, List.mem_cons, List.not_mem_nil, or_false] at hevent
    rcases hevent with rfl | rfl | rfl
    · exact ⟨⟨hboth, fun octets ↦ List.append_nil octets⟩, trivial⟩
    · exact ⟨(by decide : 70 ≤ min 128 (Bits.values 31 + 30)), trivial⟩
    · exact ⟨trivial, rfl⟩
  exact (send_of_smaller_writer (by decide) (by decide) true .auto
    (fun event hevent ↦ (hevents event hevent).1) (fun event hevent ↦ (hevents event hevent).2)
    hagain hcut).1

end HeaderCompression.Connection
