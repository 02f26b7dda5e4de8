import HeaderCompression.Proofs.Block.Announcement
import HeaderCompression.Proofs.Connection.Delivery

/-!
# Synchronisation of the two ends

Between two blocks the two ends of a connection have the same table, up to the size changes that the
writer has put off. Every block that is sent carries those changes out on both sides, delivers
exactly the headers that were sent, and leaves the two ends in that relation again.
-/

namespace HeaderCompression

open Block Octets Table Wire

namespace Connection

/-- What can happen on a connection. -/
inductive Event where
  | send (headers : List Header) (cut : Octets → List Octets)
  | requestCapacity (capacity : Nat)
  | setPolicy (policy : EvictionPolicy)

/-- Headers can be encoded, fragments make up the block, and table sizes are within the limit. -/
def Event.IsAdmissible (limit : Nat) : Event → Prop
  | send headers cut =>
    (∀ header ∈ headers, header.IsEncodable) ∧ ∀ octets, (cut octets).flatten = octets
  | requestCapacity capacity => capacity ≤ limit
  | setPolicy _ => True

def perform (connection : Connection) : Event → Connection
  | .send headers cut => (connection.send headers cut).2
  | .requestCapacity capacity => connection.requestCapacity capacity
  | .setPolicy policy => connection.setPolicy policy

/-- Both ends have the same table, and nothing is under way. -/
structure IsSynchronised (connection : Connection) (limit : Nat) : Prop where
  writer : connection.writer.Valid limit
  reader : connection.reader.IsIdle
  isUnlimited : Size.largest ≤ connection.reader.decoder.budget.limit
  listDecoder_eq :
    connection.reader.decoder.listDecoder = connection.writer.encoder.listDecoder limit

theorem isSynchronised_ofSettings {limit : Nat} (hlimit : limit ≤ Bits.values 31 + 30)
    (useIndexing : Bool) (huffman : HuffmanMode) :
    IsSynchronised
      (ofSettings { tableCapacity := limit, useIndexing, huffman }
        { listSizeLimit := Size.largest, tableSizeLimit := limit }) limit where
  writer :=
    ⟨⟨DynamicTable.wellFormed_ofCapacity limit .fifo, Nat.le_refl limit, hlimit⟩,
      fun _ hpending ↦ by cases hpending⟩
  reader := Reader.isIdle_ofSettings _
  isUnlimited := Nat.le_refl _
  listDecoder_eq := rfl

namespace IsSynchronised

variable {connection : Connection} {limit : Nat}

/-- What the reader has received when a block has been sent. -/
theorem received (hsynchronised : connection.IsSynchronised limit) {headers : List Header}
    (hencodable : ∀ header ∈ headers, header.IsEncodable) {fragments : List Octets}
    (hfragments : fragments.flatten = (connection.writer.encode headers).1) :
    let received := connection.reader.decodeAll fragments
    received.IsWhole ∧ received.headers = headers ∧
      received.reader.decoder.listDecoder =
        (connection.writer.encode headers).2.encoder.listDecoder limit ∧
      Size.largest ≤ received.reader.decoder.budget.limit := by
  have hdecode := Writer.decode_encode hsynchronised.writer hencodable
  rw [← hsynchronised.listDecoder_eq, ← hfragments] at hdecode
  exact hsynchronised.reader.received hsynchronised.isUnlimited hdecode

theorem send (hsynchronised : connection.IsSynchronised limit) {headers : List Header}
    (hencodable : ∀ header ∈ headers, header.IsEncodable) {cut : Octets → List Octets}
    (hcut : ∀ octets, (cut octets).flatten = octets) :
    (connection.send headers cut).2.IsSynchronised limit := by
  obtain ⟨-, -, htable, hunlimited⟩ := hsynchronised.received hencodable (hcut _)
  have hreachable := Reader.reachable_decodeAll hsynchronised.reader.reachable
    (cut (connection.writer.encode headers).1)
  exact ⟨hsynchronised.writer.encode headers, Reader.isIdle_endBlock hreachable, hunlimited, htable⟩

theorem requestCapacity (hsynchronised : connection.IsSynchronised limit) {capacity : Nat}
    (hcapacity : capacity ≤ limit) : (connection.requestCapacity capacity).IsSynchronised limit :=
  { hsynchronised with writer := hsynchronised.writer.requestCapacity hcapacity }

theorem setPolicy (hsynchronised : connection.IsSynchronised limit) (policy : EvictionPolicy) :
    (connection.setPolicy policy).IsSynchronised limit := by
  have hreader := hsynchronised.reader
  have htable := congrArg ListDecoder.table hsynchronised.listDecoder_eq
  have hlimit : connection.reader.decoder.tableSizeLimit = limit :=
    congrArg ListDecoder.tableSizeLimit hsynchronised.listDecoder_eq
  refine ⟨hsynchronised.writer.setPolicy policy, hreader.setPolicy policy,
    hsynchronised.isUnlimited, ?_⟩
  have hlisting : (connection.reader.decoder.table.setPolicy policy).listing =
      (connection.writer.encoder.table.setPolicy policy).listing := by
    rw [hreader.reachable.valid.table.listing_setPolicy,
      hsynchronised.writer.encoder.table.listing_setPolicy]
    exact congrArg (ListTable.setPolicy · policy) htable
  unfold Decoder.listDecoder Encoder.listDecoder
  exact congr (congrArg ListDecoder.mk hlisting) hlimit

theorem perform (hsynchronised : connection.IsSynchronised limit) {event : Event}
    (hadmissible : event.IsAdmissible limit) : (connection.perform event).IsSynchronised limit := by
  cases event with
  | send headers cut => exact hsynchronised.send hadmissible.1 hadmissible.2
  | requestCapacity capacity => exact hsynchronised.requestCapacity hadmissible
  | setPolicy policy => exact hsynchronised.setPolicy policy

theorem foldl_perform (hsynchronised : connection.IsSynchronised limit) {events : List Event}
    (hadmissible : ∀ event ∈ events, event.IsAdmissible limit) :
    (events.foldl Connection.perform connection).IsSynchronised limit := by
  induction events generalizing connection with
  | nil => exact hsynchronised
  | cons event events hevents =>
    exact hevents (hsynchronised.perform (hadmissible event List.mem_cons_self))
      fun other hother ↦ hadmissible other (List.mem_cons_of_mem event hother)

end IsSynchronised

/-- Whatever has happened on a connection, the next block delivers exactly the headers that are
sent, leaves nothing behind, and the two tables are the same after it. -/
theorem send_of_run {limit : Nat} (hlimit : limit ≤ Bits.values 31 + 30) (useIndexing : Bool)
    (huffman : HuffmanMode) {events : List Event}
    (hadmissible : ∀ event ∈ events, event.IsAdmissible limit) {headers : List Header}
    (hencodable : ∀ header ∈ headers, header.IsEncodable) {cut : Octets → List Octets}
    (hcut : ∀ octets, (cut octets).flatten = octets) :
    let connection := events.foldl perform
      (ofSettings { tableCapacity := limit, useIndexing, huffman }
        { listSizeLimit := Size.largest, tableSizeLimit := limit })
    let received := connection.reader.decodeAll (cut (connection.writer.encode headers).1)
    let sent := connection.send headers cut
    sent.1.headers = headers ∧ sent.1.error? = none ∧ sent.1.truncated = false ∧
      received.reader.buffered = 0 ∧ received.reader.isPartial = false ∧
      sent.2.reader.decoder.table.toList = sent.2.writer.encoder.table.toList ∧
      sent.2.reader.decoder.table.size = sent.2.writer.encoder.table.size ∧
      sent.2.reader.decoder.table.capacity = sent.2.writer.encoder.table.capacity := by
  intro connection received sent
  have hsynchronised : connection.IsSynchronised limit :=
    (isSynchronised_ofSettings hlimit useIndexing huffman).foldl_perform hadmissible
  obtain ⟨⟨herror, hpartial⟩, hheaders, htable, hunlimited⟩ :=
    hsynchronised.received hencodable (hcut (connection.writer.encode headers).1)
  have hnext : sent.2.IsSynchronised limit := hsynchronised.send hencodable hcut
  have hvalid : received.reader.decoder.Valid :=
    (Reader.reachable_decodeAll hsynchronised.reader.reachable _).valid
  have htruncated : sent.1.truncated = false :=
    decide_eq_false (Nat.not_lt.2 (Nat.le_trans hvalid.budget hunlimited))
  have hbuffered : received.reader.buffered = 0 := by
    rw [Reader.buffered, ← Queue.length_unread, (Reader.isPartial_eq_false_iff.1 hpartial).1,
      List.length_nil]
  have hlisting := congrArg ListDecoder.table hnext.listDecoder_eq
  have hentries : sent.2.reader.decoder.table.toList = sent.2.writer.encoder.table.toList :=
    congrArg ListTable.entries hlisting
  have hsize : sent.2.reader.decoder.table.size = sent.2.writer.encoder.table.size := by
    rw [hnext.reader.reachable.valid.table.size_eq, hnext.writer.encoder.table.size_eq, hentries]
  exact ⟨hheaders, herror, htruncated, hbuffered, hpartial, hentries, hsize,
    congrArg ListTable.capacity hlisting⟩

/-- A table that holds one field is emptied on the way to a new size and filled again. The blocks
travel in fragments of two and of three octets. -/
theorem send_of_run_of_small_table :
    let header : Header := { field := ⟨[0x61], [0x62, 0x63]⟩ }
    let events : List Event :=
      [.send [header] (fragments 2), .requestCapacity 20, .requestCapacity 60,
        .setPolicy (.batched 4)]
    let connection := events.foldl perform
      (ofSettings { tableCapacity := 64, useIndexing := true, huffman := .auto }
        { listSizeLimit := Size.largest, tableSizeLimit := 64 })
    (connection.send [header, header] (fragments 3)).1.headers = [header, header] := by
  intro header events connection
  have hheader : header.IsEncodable := ⟨List.cons_ne_nil _ _, by decide, by decide⟩
  have hone : ∀ other ∈ [header], other.IsEncodable := by
    intro other hother
    rwa [List.mem_singleton.1 hother]
  have hboth : ∀ other ∈ [header, header], other.IsEncodable := by
    intro other hother
    rcases List.mem_cons.1 hother with rfl | hother
    · exact hheader
    · exact hone other hother
  have hadmissible : ∀ event ∈ events, event.IsAdmissible 64 := by
    intro event hevent
    simp only [events, List.mem_cons, List.not_mem_nil, or_false] at hevent
    rcases hevent with rfl | rfl | rfl | rfl
    · exact ⟨hone, fragments_flatten 2⟩
    · exact (by decide : 20 ≤ 64)
    · exact (by decide : 60 ≤ 64)
    · exact trivial
  exact (send_of_run (by decide) true .auto hadmissible hboth (fragments_flatten 3)).1

end Connection

end HeaderCompression
