import HeaderCompression.Proofs.Decoder.Mirroring

/-!
# Fresh starts

The end of a block leaves nothing behind but the table and the limits, wherever the block was cut
off, whatever was skipped or dropped, and even after an error. The octets held back are gone, and
the registers that keep what they held are written before they are read again. So a reader whose
block has ended cannot be told from one that was never used.
-/

namespace HeaderCompression.Block

open Octets Table

/-! ## Requests -/

/-- What can be asked of a reader, and of the decoder in it. -/
inductive Request where
  | decode (fragment : Octets)
  | endBlock
  /-- Decode from a queue that is not the reader's own. -/
  | decodeFrom (queue : Queue)
  /-- End the block, but keep the octets held back. -/
  | endDecoderBlock
  | resize (capacity : Nat)
  | setTableSizeLimit (limit : Nat)
  | setPolicy (policy : EvictionPolicy)

inductive Answer where
  | decoded (result : Except DecodingError (List Header))
  /-- Headers that come before an error are delivered. -/
  | decodedFrom (headers : List Header) (error? : Option DecodingError) (queue : Queue)
  | ended (isTruncated : Bool)
  | resized (error? : Option DecodingError)
  | done

/-- What can be seen of a reader between two requests. -/
structure View where
  buffered : Nat
  isPartial : Bool
  isDecoderPartial : Bool
  entries : List Field
  tableSize : Nat
  capacity : Nat
  policy : EvictionPolicy
  tableSizeLimit : Nat
  listSizeLimit : Nat

/-- Something that answers requests and shows a view in between. -/
structure Service (σ : Type) where
  answer : σ → Request → Answer × σ
  view : σ → View

namespace Service

variable {σ τ : Type}

def after (service : Service σ) (start : σ) (history : List Request) : σ :=
  history.foldl (fun state request ↦ (service.answer state request).2) start

/-- The answers to requests that are made in order, each with the view after it. -/
def replies (service : Service σ) (start : σ) : List Request → List (Answer × View)
  | [] => []
  | request :: requests =>
    let answered := service.answer start request
    (answered.1, service.view answered.2) :: service.replies answered.2 requests

/-- Every request is answered alike on both sides, and has consequences that are alike. -/
structure Simulates (service : Service σ) (other : Service τ) (Shows : σ → τ → Prop) : Prop where
  view_eq : ∀ {state shown}, Shows state shown → service.view state = other.view shown
  answer : ∀ {state shown} (request : Request), Shows state shown →
    (service.answer state request).1 = (other.answer shown request).1 ∧
      Shows (service.answer state request).2 (other.answer shown request).2

variable {service : Service σ} {other : Service τ} {Shows : σ → τ → Prop} {state : σ} {shown : τ}

theorem Simulates.after (hsimulates : service.Simulates other Shows) (hshows : Shows state shown)
    (history : List Request) : Shows (service.after state history) (other.after shown history) := by
  induction history generalizing state shown with
  | nil => exact hshows
  | cons request history hhistory => exact hhistory (hsimulates.answer request hshows).2

theorem Simulates.replies_eq (hsimulates : service.Simulates other Shows)
    (hshows : Shows state shown) (requests : List Request) :
    service.replies state requests = other.replies shown requests := by
  induction requests generalizing state shown with
  | nil => rfl
  | cons request requests hrequests =>
    obtain ⟨hanswer, hnext⟩ := hsimulates.answer request hshows
    rw [replies, replies, hanswer, hsimulates.view_eq hnext, hrequests hnext]

end Service

namespace Reader

def answer (reader : Reader) : Request → Answer × Reader
  | .decode fragment =>
    let decoded := reader.decode fragment
    (.decoded decoded.1, decoded.2)
  | .endBlock =>
    let ended := reader.endBlock
    (.ended ended.1, ended.2)
  | .decodeFrom queue =>
    let decoded := reader.decoder.decode queue
    (.decodedFrom decoded.1.headers decoded.1.error? decoded.2,
      { reader with decoder := decoded.1.decoder })
  | .endDecoderBlock =>
    let ended := reader.decoder.endBlock
    (.ended ended.1, { reader with decoder := ended.2 })
  | .resize capacity =>
    match reader.decoder.resize capacity with
    | .ok decoder => (.resized none, { reader with decoder })
    | .error error => (.resized (some error), reader)
  | .setTableSizeLimit limit => (.done, reader.setTableSizeLimit limit)
  | .setPolicy policy => (.done, reader.setPolicy policy)

def view (reader : Reader) : View where
  buffered := reader.buffered
  isPartial := reader.isPartial
  isDecoderPartial := reader.decoder.isPartial
  entries := reader.decoder.table.toList
  tableSize := reader.decoder.table.size
  capacity := reader.decoder.table.capacity
  policy := reader.decoder.table.policy
  tableSizeLimit := reader.decoder.tableSizeLimit
  listSizeLimit := reader.decoder.budget.limit

def service : Service Reader := ⟨answer, view⟩

/-- A reader that was never used, with a given table. -/
def ofTable (table : DynamicTable) (settings : DecoderSettings) : Reader where
  decoder := .ofTable table settings

end Reader

/-! ## Readers with registers -/

/-- A reader whose decoder keeps what it has read in registers. -/
structure RegisterReader where
  decoder : RegisterDecoder
  input : Queue := .empty

namespace RegisterReader

def ofTable (table : DynamicTable) (settings : DecoderSettings) : RegisterReader where
  decoder := .ofTable table settings

def ofSettings (settings : DecoderSettings) : RegisterReader where
  decoder := .ofSettings settings

def decode (reader : RegisterReader) (fragment : Octets) :
    Except DecodingError (List Header) × RegisterReader :=
  let decoded := reader.decoder.decode (reader.input.append fragment)
  let reader : RegisterReader := ⟨decoded.1.registers, decoded.2⟩
  match decoded.1.error? with
  | none => (.ok decoded.1.headers, reader)
  | some error => (.error error, reader)

def endBlock (reader : RegisterReader) : Bool × RegisterReader :=
  let ended := reader.decoder.endBlock
  (ended.1, { decoder := ended.2, input := reader.input.clear })

def buffered (reader : RegisterReader) : Nat :=
  reader.input.available

def isPartial (reader : RegisterReader) : Bool :=
  0 < reader.buffered || reader.decoder.isPartial

def answer (reader : RegisterReader) : Request → Answer × RegisterReader
  | .decode fragment =>
    let decoded := reader.decode fragment
    (.decoded decoded.1, decoded.2)
  | .endBlock =>
    let ended := reader.endBlock
    (.ended ended.1, ended.2)
  | .decodeFrom queue =>
    let decoded := reader.decoder.decode queue
    (.decodedFrom decoded.1.headers decoded.1.error? decoded.2,
      { reader with decoder := decoded.1.registers })
  | .endDecoderBlock =>
    let ended := reader.decoder.endBlock
    (.ended ended.1, { reader with decoder := ended.2 })
  | .resize capacity =>
    match reader.decoder.resize capacity with
    | .ok decoder => (.resized none, { reader with decoder })
    | .error error => (.resized (some error), reader)
  | .setTableSizeLimit limit =>
    (.done, { reader with decoder := reader.decoder.setTableSizeLimit limit })
  | .setPolicy policy => (.done, { reader with decoder := reader.decoder.setPolicy policy })

def view (reader : RegisterReader) : View where
  buffered := reader.buffered
  isPartial := reader.isPartial
  isDecoderPartial := reader.decoder.isPartial
  entries := reader.decoder.table.toList
  tableSize := reader.decoder.table.size
  capacity := reader.decoder.table.capacity
  policy := reader.decoder.table.policy
  tableSizeLimit := reader.decoder.tableSizeLimit
  listSizeLimit := reader.decoder.budget.limit

def service : Service RegisterReader := ⟨answer, view⟩

/-! ## One answer for both -/

/-- A reader with registers shows a reader with stages if the registers that matter do. -/
structure Shows (registers : RegisterReader) (reader : Reader) : Prop where
  decoder : registers.decoder.Shows reader.decoder
  input_eq : registers.input = reader.input
  valid : reader.decoder.Valid
  tableKept : reader.decoder.TableKept

variable {registers : RegisterReader} {reader : Reader}

theorem Shows.view_eq (hshows : registers.Shows reader) : registers.view = reader.view := by
  have hpartial := RegisterDecoder.isPartial_eq hshows.decoder
  have htable := hshows.decoder.table
  unfold view Reader.view isPartial Reader.isPartial buffered Reader.buffered
  rw [hpartial, hshows.input_eq, htable.toList_eq, htable.size_eq, htable.capacity_eq,
    htable.policy_eq, hshows.decoder.tableSizeLimit_eq, hshows.decoder.budget_eq]

theorem Shows.decode (hshows : registers.Shows reader) (fragment : Octets) :
    (registers.decode fragment).1 = (reader.decode fragment).1 ∧
      (registers.decode fragment).2.Shows (reader.decode fragment).2 := by
  obtain ⟨houtcome, hqueue⟩ := RegisterDecoder.decode_shows hshows.decoder hshows.valid
    hshows.tableKept (reader.input.append fragment)
  have hvalid := hshows.valid.run (reader.input.append fragment).unread.length
    (reader.input.append fragment).unread
  have hkept := hshows.tableKept.run hshows.valid (reader.input.append fragment).unread.length
    (reader.input.append fragment).unread
  unfold RegisterReader.decode Reader.decode
  dsimp only
  rw [hshows.input_eq, houtcome.error?_eq, hqueue, houtcome.headers_eq]
  cases (reader.decoder.decode (reader.input.append fragment)).1.error? with
  | none => exact ⟨rfl, houtcome.decoder, rfl, hvalid, hkept⟩
  | some error => exact ⟨rfl, houtcome.decoder, rfl, hvalid, hkept⟩

theorem simulates : service.Simulates Reader.service Shows where
  view_eq := Shows.view_eq
  answer := by
    intro registers reader request hshows
    obtain ⟨hdecoder, hinput, hvalid, hkept⟩ := hshows
    cases request with
    | decode fragment =>
      obtain ⟨hresult, hnext⟩ := Shows.decode ⟨hdecoder, hinput, hvalid, hkept⟩ fragment
      exact ⟨congrArg Answer.decoded hresult, hnext⟩
    | endBlock =>
      obtain ⟨htruncated, hended⟩ := RegisterDecoder.endBlock_shows hdecoder.toCarries
      exact ⟨congrArg Answer.ended htruncated, hended, rfl, hvalid.endBlock, hkept.endBlock⟩
    | decodeFrom queue =>
      obtain ⟨houtcome, hqueue⟩ := RegisterDecoder.decode_shows hdecoder hvalid hkept queue
      refine ⟨?_, houtcome.decoder, hinput, hvalid.run _ _, hkept.run hvalid _ _⟩
      show Answer.decodedFrom _ _ _ = Answer.decodedFrom _ _ _
      rw [houtcome.headers_eq, houtcome.error?_eq, hqueue]
    | endDecoderBlock =>
      obtain ⟨htruncated, hended⟩ := RegisterDecoder.endBlock_shows hdecoder.toCarries
      exact ⟨congrArg Answer.ended htruncated, hended, hinput, hvalid.endBlock, hkept.endBlock⟩
    | resize capacity =>
      unfold service Reader.service RegisterReader.answer Reader.answer
      dsimp only
      rcases RegisterDecoder.resize_shows hdecoder capacity with
        ⟨error, hregisters, hreader⟩ | ⟨resized, next, hregisters, hreader, hnext⟩
      · rw [hregisters, hreader]
        exact ⟨rfl, hdecoder, hinput, hvalid, hkept⟩
      · rw [hregisters, hreader]
        exact ⟨rfl, hnext, hinput, hvalid.resize hreader, hkept.resize hvalid hreader⟩
    | setTableSizeLimit limit =>
      exact ⟨rfl, RegisterDecoder.setTableSizeLimit_shows hdecoder limit, hinput,
        hvalid.setTableSizeLimit limit, hkept.setTableSizeLimit hvalid limit⟩
    | setPolicy policy =>
      exact ⟨rfl, RegisterDecoder.setPolicy_shows hdecoder policy, hinput, hvalid.setPolicy policy,
        hkept.setPolicy policy⟩

/-! ## Fresh readers -/

/-- Registers at the start of a block show a reader that was never used, whatever they hold. -/
theorem shows_ofTable {table : DynamicTable} {settings : DecoderSettings}
    (hinput : registers.input = .empty) (hstate : registers.decoder.state = .boundary)
    (hbudget : registers.decoder.budget = { limit := settings.listSizeLimit })
    (hlimit : registers.decoder.tableSizeLimit = settings.tableSizeLimit)
    (halike : registers.decoder.table.Alike table) (htable : table.WellFormed)
    (hnamed : table.IsNamed) (hcapacity : table.capacity ≤ settings.tableSizeLimit) :
    registers.Shows (.ofTable table settings) where
  decoder := ⟨⟨halike, hbudget, hlimit⟩, hstate⟩
  input_eq := hinput
  valid := ⟨htable, Nat.zero_le _, trivial⟩
  tableKept := ⟨hcapacity, hnamed, trivial⟩

theorem shows_ofSettings (settings : DecoderSettings) :
    (ofSettings settings).Shows (.ofSettings settings) := by
  have htable := DynamicTable.wellFormed_ofCapacity settings.tableSizeLimit .fifo
  have hkept := Decoder.TableKept.ofSettings settings
  exact shows_ofTable rfl rfl rfl rfl (htable.alike htable rfl) htable hkept.named hkept.capacity_le

/-- Registers make no difference to anybody. -/
theorem replies_ofSettings (settings : DecoderSettings) (requests : List Request) :
    service.replies (ofSettings settings) requests =
      Reader.service.replies (.ofSettings settings) requests :=
  simulates.replies_eq (shows_ofSettings settings) requests

end RegisterReader

/-- After any history, and wherever it cuts the block off, a reader whose block is ended is seen to
be what a reader is that was never used and has the same limits and a table with the same entries,
and it answers all requests in the same way. So does a reader whose registers still hold what they
held. -/
theorem ended_block_leaves_nothing (settings : DecoderSettings) (history : List Request)
    {table : DynamicTable}
    (halike : table.Alike (Reader.service.after (.ofSettings settings) history).decoder.table)
    (requests : List Request) :
    let reader := Reader.service.after (.ofSettings settings) history
    let registers := RegisterReader.service.after (.ofSettings settings) history
    let limits : DecoderSettings := ⟨reader.decoder.budget.limit, reader.decoder.tableSizeLimit⟩
    let fresh : Reader := .ofTable table limits
    let freshRegisters : RegisterReader := .ofTable table limits
    (reader.endBlock.2.view = fresh.view ∧
      Reader.service.replies reader.endBlock.2 requests = Reader.service.replies fresh requests) ∧
      (registers.endBlock.2.view = fresh.view ∧
        RegisterReader.service.replies registers.endBlock.2 requests =
          Reader.service.replies fresh requests) ∧
      freshRegisters.view = fresh.view ∧
      RegisterReader.service.replies freshRegisters requests =
        Reader.service.replies fresh requests := by
  intro reader registers limits fresh freshRegisters
  have hsimulates := RegisterReader.simulates
  have hshows : registers.Shows reader :=
    hsimulates.after (RegisterReader.shows_ofSettings settings) history
  have htable : table.WellFormed := halike.wellFormed hshows.valid.table
  have hnamed : table.IsNamed := by
    intro entry hentry
    rw [halike.toList_eq] at hentry
    exact hshows.tableKept.named entry hentry
  have hcapacity : table.capacity ≤ limits.tableSizeLimit := by
    rw [halike.capacity_eq]
    exact hshows.tableKept.capacity_le
  have hended : registers.endBlock.2.Shows reader.endBlock.2 :=
    (hsimulates.answer .endBlock hshows).2
  have hbudget : registers.endBlock.2.decoder.budget = { limit := limits.listSizeLimit } :=
    congrArg Budget.reset hshows.decoder.budget_eq
  have hresidue : registers.endBlock.2.Shows fresh :=
    RegisterReader.shows_ofTable rfl rfl hbudget hshows.decoder.tableSizeLimit_eq
      (hshows.decoder.table.trans halike.symm) htable hnamed hcapacity
  have hfresh : freshRegisters.Shows fresh :=
    RegisterReader.shows_ofTable rfl rfl rfl rfl (htable.alike htable rfl) htable hnamed hcapacity
  refine ⟨⟨?_, ?_⟩, ⟨hresidue.view_eq, hsimulates.replies_eq hresidue requests⟩, hfresh.view_eq,
    hsimulates.replies_eq hfresh requests⟩
  · rw [← hended.view_eq, hresidue.view_eq]
  · rw [← hsimulates.replies_eq hended requests, hsimulates.replies_eq hresidue requests]

/-- The block is cut off in a name that is passed over, and the registers remember how much of it
was left. -/
theorem ended_block_leaves_nothing_of_skipped_name :
    let settings : DecoderSettings := ⟨20, 80⟩
    let history : List Request :=
      [.decode [0x40, 1, 97, 1, 98], .decode [0x40, 1, 99, 1, 100], .decode [0x40, 1, 101, 1, 102],
        .decode [0x10, 30, 1, 2, 3]]
    let requests : List Request := [.decode [0xbe], .decode [0x80], .endBlock]
    let table := ((DynamicTable.ofCapacity 80 .fifo).add ⟨[99], [100]⟩).add ⟨[101], [102]⟩
    let reader := Reader.service.after (.ofSettings settings) history
    let registers := RegisterReader.service.after (.ofSettings settings) history
    table.Alike reader.decoder.table ∧ registers.endBlock.2.decoder.skipLength = 27 ∧
      RegisterReader.service.replies registers.endBlock.2 requests =
        Reader.service.replies (.ofTable table settings) requests := by
  intro settings history requests table reader registers
  have hskip : registers.endBlock.2.decoder.skipLength = 27 := by decide +kernel
  have hentries : table.toList = reader.decoder.table.toList := by decide +kernel
  have hcapacity : table.capacity = reader.decoder.table.capacity := by decide +kernel
  have hpolicy : table.policy = reader.decoder.table.policy := by decide +kernel
  have hlimits : (⟨reader.decoder.budget.limit, reader.decoder.tableSizeLimit⟩ : DecoderSettings) =
      settings := by decide +kernel
  have htable : table.WellFormed :=
    ((DynamicTable.wellFormed_ofCapacity 80 .fifo).add ⟨[99], [100]⟩).add ⟨[101], [102]⟩
  -- From here on the values are not looked at, and so nothing evaluates the runs again.
  clear_value settings history requests table
  have hlisting : table.listing = reader.decoder.table.listing := by
    rw [DynamicTable.listing, hentries, hcapacity, hpolicy, DynamicTable.listing]
  have hshows : registers.Shows reader :=
    RegisterReader.simulates.after (RegisterReader.shows_ofSettings settings) history
  have halike : table.Alike reader.decoder.table := htable.alike hshows.valid.table hlisting
  have hreplies := (ended_block_leaves_nothing settings history halike requests).2.1.2
  rw [hlimits] at hreplies
  exact ⟨halike, hskip, hreplies⟩

end HeaderCompression.Block
