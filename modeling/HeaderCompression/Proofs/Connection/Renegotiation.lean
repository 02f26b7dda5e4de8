import HeaderCompression.Proofs.Connection.Synchronisation

/-!
# Renegotiation of table sizes

A reader shrinks its table as soon as its limit is lowered, whereas a writer puts off the sizes that
it is asked for until the next block. As long as no limit is below the smallest of these sizes, the
reader keeps whatever fits in it. The block begins with that size, which leaves the same entries on
both sides.
-/

namespace HeaderCompression

open Block Octets Table Wire

/-! ## Readers -/

namespace Block.Reader

variable {reader : Reader} {table : ListTable} {capacity : Nat}

/-- The reader is between two blocks, and its table agrees with another one within a capacity. -/
structure Agrees (reader : Reader) (table : ListTable) (capacity : Nat) : Prop where
  isIdle : reader.IsIdle
  isUnlimited : Size.largest ≤ reader.decoder.budget.limit
  setCapacity_eq : reader.decoder.table.listing.setCapacity capacity = table.setCapacity capacity

/-- A limit no smaller than the capacity takes nothing away that fits in it. -/
theorem Agrees.setTableSizeLimit (hagrees : reader.Agrees table capacity) {limit : Nat}
    (hlimit : capacity ≤ limit) : (reader.setTableSizeLimit limit).Agrees table capacity := by
  refine ⟨hagrees.isIdle.setTableSizeLimit limit, hagrees.isUnlimited, ?_⟩
  unfold Reader.setTableSizeLimit Decoder.setTableSizeLimit
  dsimp only
  split
  · rw [hagrees.isIdle.reachable.valid.table.listing_setCapacity,
      ListTable.setCapacity_setCapacity _ hlimit, hagrees.setCapacity_eq]
  · exact hagrees.setCapacity_eq

theorem Agrees.foldl_setTableSizeLimit (hagrees : reader.Agrees table capacity) {limits : List Nat}
    (hlimits : ∀ limit ∈ limits, capacity ≤ limit) :
    (limits.foldl Reader.setTableSizeLimit reader).Agrees table capacity := by
  refine List.foldlRecOn (motive := (Agrees · table capacity)) limits _ hagrees ?_
  intro current hcurrent limit hlimit
  exact hcurrent.setTableSizeLimit (hlimits limit hlimit)

end Block.Reader

/-! ## Connections -/

namespace Connection

/-- What can be changed on a connection between two blocks. -/
inductive Adjustment where
  | requestCapacity (capacity : Nat)
  | setTableSizeLimit (limit : Nat)

def Adjustment.capacity? : Adjustment → Option Nat
  | requestCapacity capacity => some capacity
  | setTableSizeLimit _ => none

def Adjustment.limit? : Adjustment → Option Nat
  | requestCapacity _ => none
  | setTableSizeLimit limit => some limit

/-- The sizes that the writer is asked for, in order. -/
def requestedCapacities (adjustments : List Adjustment) : List Nat :=
  adjustments.filterMap Adjustment.capacity?

/-- The limits that the reader is given, in order. -/
def tableSizeLimits (adjustments : List Adjustment) : List Nat :=
  adjustments.filterMap Adjustment.limit?

def adjust (connection : Connection) : Adjustment → Connection
  | .requestCapacity capacity => connection.requestCapacity capacity
  | .setTableSizeLimit limit => connection.setTableSizeLimit limit

variable {connection : Connection} {adjustments : List Adjustment} {smallest latest : Nat}

/-- Each end is adjusted by itself, in whatever order the adjustments come. -/
theorem foldl_adjust (connection : Connection) (adjustments : List Adjustment) :
    adjustments.foldl adjust connection =
      { writer :=
          (requestedCapacities adjustments).foldl Writer.requestCapacity connection.writer
        reader :=
          (tableSizeLimits adjustments).foldl Reader.setTableSizeLimit connection.reader } := by
  induction adjustments generalizing connection with
  | nil => rfl
  | cons adjustment adjustments hadjustments =>
    rw [List.foldl_cons, hadjustments]
    cases adjustment <;> rfl

/-- Between two blocks both ends have the same table, and the writer has put nothing off. -/
structure IsSettled (connection : Connection) : Prop where
  writer : connection.writer.encoder.Reachable
  pending_eq : connection.writer.pending? = none
  reader : connection.reader.IsIdle
  isUnlimited : Size.largest ≤ connection.reader.decoder.budget.limit
  toList_eq : connection.reader.decoder.table.toList = connection.writer.encoder.table.toList
  capacity_eq : connection.reader.decoder.table.capacity = connection.writer.encoder.table.capacity
  policy_eq : connection.reader.decoder.table.policy = connection.writer.encoder.table.policy

theorem IsSettled.agrees (hsettled : connection.IsSettled) (capacity : Nat) :
    connection.reader.Agrees connection.writer.encoder.table.listing capacity := by
  have hlisting : connection.reader.decoder.table.listing =
      connection.writer.encoder.table.listing := by
    rw [DynamicTable.listing, hsettled.toList_eq, hsettled.capacity_eq, hsettled.policy_eq]
    rfl
  exact ⟨hsettled.reader, hsettled.isUnlimited,
    congrArg (ListTable.setCapacity · capacity) hlisting⟩

theorem isSettled_of_listDecoder_eq {limit : Nat} (hwriter : connection.writer.encoder.Reachable)
    (hpending : connection.writer.pending? = none) (hreader : connection.reader.IsIdle)
    (hunlimited : Size.largest ≤ connection.reader.decoder.budget.limit)
    (hlistDecoder : connection.reader.decoder.listDecoder =
      connection.writer.encoder.listDecoder limit) : connection.IsSettled := by
  have hlisting : connection.reader.decoder.table.listing =
      connection.writer.encoder.table.listing := congrArg ListDecoder.table hlistDecoder
  exact
    { writer := hwriter
      pending_eq := hpending
      reader := hreader
      isUnlimited := hunlimited
      toList_eq := congrArg ListTable.entries hlisting
      capacity_eq := congrArg ListTable.capacity hlisting
      policy_eq := congrArg ListTable.policy hlisting }

/-- Whatever was set and asked for between two blocks, if no limit was below the smallest size asked
for, and the latest size is within the last limit, then the next block delivers exactly the headers
that are sent, and the two tables are the same after it. -/
theorem send_of_renegotiation (hsettled : connection.IsSettled)
    (hsmallest : (requestedCapacities adjustments).min? = some smallest)
    (hlatest : (requestedCapacities adjustments).getLast? = some latest)
    (hlimits : ∀ limit ∈ tableSizeLimits adjustments, smallest ≤ limit)
    (hlimit : latest ≤ (adjustments.foldl adjust connection).reader.decoder.tableSizeLimit)
    (hrange : latest ≤ Bits.values 31 + 30) {headers : List Header}
    (hencodable : ∀ header ∈ headers, header.IsEncodable) {cut : Octets → List Octets}
    (hcut : ∀ octets, (cut octets).flatten = octets) :
    let adjusted := adjustments.foldl adjust connection
    let received := adjusted.reader.decodeAll (cut (adjusted.writer.encode headers).1)
    let sent := adjusted.send headers cut
    sent.1.headers = headers ∧ sent.1.error? = none ∧ sent.1.truncated = false ∧
      received.reader.isPartial = false ∧
      sent.2.reader.decoder.table.toList = sent.2.writer.encoder.table.toList ∧
      sent.2.reader.decoder.table.capacity = latest ∧
      sent.2.writer.encoder.table.capacity = latest := by
  intro adjusted received sent
  have hadjusted : adjusted = ⟨_, _⟩ := foldl_adjust connection adjustments
  have hwriter : adjusted.writer =
      { connection.writer with pending? := some ⟨smallest, latest⟩ } := by
    rw [hadjusted]
    exact Writer.foldl_requestCapacity hsettled.pending_eq hsmallest hlatest
  have hreachable : adjusted.writer.encoder.Reachable := by
    rw [hwriter]
    exact hsettled.writer
  have hpending : adjusted.writer.pending? = some ⟨smallest, latest⟩ := by
    rw [hwriter]
  -- The writer's table has not changed yet, so the reader's is compared with what it was.
  have hagrees : adjusted.reader.Agrees adjusted.writer.encoder.table.listing smallest := by
    rw [hwriter, hadjusted]
    exact (hsettled.agrees smallest).foldl_setTableSizeLimit hlimits
  have hdecode : adjusted.reader.decoder.listDecoder.decode (adjusted.writer.encode headers).1 =
      .whole ((adjusted.writer.encode headers).2.encoder.listDecoder
        adjusted.reader.decoder.tableSizeLimit) headers :=
    Writer.decode_encode_of_agree hreachable hpending hlimit hrange hagrees.setCapacity_eq
      hencodable
  have hdelivers := delivers_of_decode hagrees.isIdle hagrees.isUnlimited hcut hdecode
  have hcapacity : sent.2.writer.encoder.table.capacity = latest :=
    Writer.capacity_encode_of_pending hreachable hpending headers
  have hagain : sent.2.IsSettled :=
    isSettled_of_listDecoder_eq (Writer.reachable_encode hreachable headers) rfl hdelivers.isIdle
      hdelivers.isUnlimited hdelivers.listDecoder_eq
  exact ⟨hdelivers.headers_eq, hdelivers.error_eq, hdelivers.truncated_eq, hdelivers.isWhole.2,
    hagain.toList_eq, hagain.capacity_eq.trans hcapacity, hcapacity⟩

/-- The older of two fields leaves the reader's table at once and the writer's only with the next
block, after the size asked for has risen again. -/
theorem send_of_renegotiation_of_two_fields :
    let first : Header := { field := ⟨[0x61], [0x62, 0x63]⟩ }
    let second : Header := { field := ⟨[0x64], [0x65]⟩ }
    let connection :=
      ((ofSettings { tableCapacity := 128, useIndexing := true, huffman := .auto }
        { listSizeLimit := Size.largest, tableSizeLimit := 128 }).send [first, second]
          fun octets ↦ [octets]).2
    let adjustments : List Adjustment :=
      [.requestCapacity 100, .setTableSizeLimit 50, .requestCapacity 40, .setTableSizeLimit 200,
        .requestCapacity 90]
    let sent := (adjustments.foldl adjust connection).send [second, first] fun octets ↦ [octets, []]
    sent.1.headers = [second, first] ∧
      sent.2.reader.decoder.table.toList = sent.2.writer.encoder.table.toList := by
  intro first second connection adjustments sent
  have hboth : ∀ header ∈ [first, second], header.IsEncodable := by decide
  have hagain : ∀ header ∈ [second, first], header.IsEncodable := by decide
  have hcut : ∀ octets : Octets, [octets, []].flatten = octets := fun octets ↦
    List.append_nil octets
  have hsynchronised : connection.IsSynchronised 128 :=
    (isSynchronised_ofSettings (by decide) true .auto).send hboth List.append_nil
  have hsettled : connection.IsSettled :=
    isSettled_of_listDecoder_eq (Writer.reachable_encode (.ofSettings _) [first, second]) rfl
      hsynchronised.reader hsynchronised.isUnlimited hsynchronised.listDecoder_eq
  have hlimits : ∀ limit ∈ tableSizeLimits adjustments, 40 ≤ limit := by decide
  have hlimit : 90 ≤ (adjustments.foldl adjust connection).reader.decoder.tableSizeLimit :=
    (by decide : 90 ≤ 200)
  obtain ⟨hheaders, -, -, -, htables, -⟩ :=
    send_of_renegotiation hsettled rfl rfl hlimits hlimit (by decide) hagain hcut
  exact ⟨hheaders, htables⟩

end Connection

end HeaderCompression
