import HeaderCompression.Connection
import HeaderCompression.Proofs.Decoder.Truncation

/-!
# Delivery of whole blocks

A block that the list decoder of a reader reads as a whole is received as the same headers, in
whatever fragments it travels. Nothing of it stays behind, and the reader is ready for another one.
-/

namespace HeaderCompression

open Block Octets

namespace Block.Reader

variable {reader : Reader}

/-- A reader between two blocks, with an unlimited budget, receives what its list decoder reads. -/
theorem IsIdle.received (hidle : reader.IsIdle)
    (hlimit : Size.largest ≤ reader.decoder.budget.limit) {next : ListDecoder}
    {headers : List Header} {fragments : List Octets}
    (hdecode : reader.decoder.listDecoder.decode fragments.flatten = .whole next headers) :
    let received := reader.decodeAll fragments
    received.IsWhole ∧ received.headers = headers ∧
      received.reader.decoder.listDecoder = next ∧
      Size.largest ≤ received.reader.decoder.budget.limit := by
  have hvalid := hidle.reachable.valid
  have hconforms :=
    Decoder.consume_conforms_decode hvalid hidle.atBoundary hlimit fragments.flatten
  rw [hdecode] at hconforms
  have hreceived := Decoder.isReceivedAs_decodeAll hidle fragments
  obtain ⟨hrest, hend⟩ := (hconforms.isPartial_iff hconforms.error_eq).1 rfl
  have hunlimited := Decoder.consume_isUnlimited hvalid
    (Decoder.isUnlimited_of_boundary hidle.atBoundary hlimit) fragments.flatten
  refine ⟨?_, (hreceived.headers_eq hconforms.error_eq).trans hconforms.headers_eq, ?_, ?_⟩
  · exact (Reception.isWhole_iff hreceived).2 ⟨hconforms.error_eq, hrest, hend⟩
  · rw [hreceived.decoder_eq]
    exact hconforms.listDecoder_eq
  · rw [hreceived.decoder_eq]
    exact hunlimited.limit

end Block.Reader

namespace Connection

variable {connection : Connection} {headers : List Header} {cut : Octets → List Octets}

/-- Sending headers delivers exactly these headers, and leaves the reader ready for another block,
as a list decoder is left by it. -/
structure Delivers (connection : Connection) (headers : List Header) (cut : Octets → List Octets)
    (next : ListDecoder) : Prop where
  isWhole : (connection.reader.decodeAll (cut (connection.writer.encode headers).1)).IsWhole
  headers_eq : (connection.send headers cut).1.headers = headers
  error_eq : (connection.send headers cut).1.error? = none
  truncated_eq : (connection.send headers cut).1.truncated = false
  isIdle : (connection.send headers cut).2.reader.IsIdle
  isUnlimited : Size.largest ≤ (connection.send headers cut).2.reader.decoder.budget.limit
  listDecoder_eq : (connection.send headers cut).2.reader.decoder.listDecoder = next

theorem delivers_of_decode (hidle : connection.reader.IsIdle)
    (hlimit : Size.largest ≤ connection.reader.decoder.budget.limit)
    (hcut : ∀ octets, (cut octets).flatten = octets) {next : ListDecoder}
    (hdecode : connection.reader.decoder.listDecoder.decode (connection.writer.encode headers).1 =
      .whole next headers) : connection.Delivers headers cut next := by
  rw [← hcut (connection.writer.encode headers).1] at hdecode
  obtain ⟨hwhole, hheaders, hnext, hunlimited⟩ := hidle.received hlimit hdecode
  have hreachable := Reader.reachable_decodeAll hidle.reachable
    (cut (connection.writer.encode headers).1)
  exact
    { isWhole := hwhole
      headers_eq := hheaders
      error_eq := hwhole.1
      truncated_eq :=
        decide_eq_false (Nat.not_lt.2 (Nat.le_trans hreachable.valid.budget hunlimited))
      isIdle := Reader.isIdle_endBlock hreachable
      isUnlimited := hunlimited
      listDecoder_eq := hnext }

end Connection

end HeaderCompression
