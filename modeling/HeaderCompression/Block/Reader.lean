import HeaderCompression.Decoder

/-!
# Reading header blocks

A block reader is a decoder together with the octets that have arrived and could not be decoded
yet. It takes fragments of header blocks and returns the headers that each fragment completes.
-/

namespace HeaderCompression.Block

open Octets Table

structure Reader where
  decoder : Decoder
  input : Queue := .empty

namespace Reader

def ofSettings (settings : DecoderSettings) : Reader where
  decoder := .ofSettings settings

/-- Decode one more fragment. -/
def decode (reader : Reader) (fragment : Octets) : Except DecodingError (List Header) × Reader :=
  let decoded := reader.decoder.decode (reader.input.append fragment)
  let reader : Reader := ⟨decoded.1.decoder, decoded.2⟩
  match decoded.1.error? with
  | none => (.ok decoded.1.headers, reader)
  | some error => (.error error, reader)

/-- What decoding several fragments has come to. -/
structure Reception where
  headers : List Header
  error? : Option DecodingError
  reader : Reader

/-- Decode fragments in order, up to the first one that fails. -/
def decodeAll (reader : Reader) : List Octets → Reception
  | [] => { headers := [], error? := none, reader }
  | fragment :: fragments =>
    match reader.decode fragment with
    | (.ok headers, reader) =>
      let received := reader.decodeAll fragments
      { received with headers := headers ++ received.headers }
    | (.error error, reader) => { headers := [], error? := some error, reader }

/-- End a header block, giving up what is not complete, and say whether headers were dropped. -/
def endBlock (reader : Reader) : Bool × Reader :=
  let ended := reader.decoder.endBlock
  (ended.1, { decoder := ended.2, input := reader.input.clear })

/-- Change the largest table size that the peer may ask for. -/
def setTableSizeLimit (reader : Reader) (limit : Nat) : Reader :=
  { reader with decoder := reader.decoder.setTableSizeLimit limit }

def setPolicy (reader : Reader) (policy : EvictionPolicy) : Reader :=
  { reader with decoder := reader.decoder.setPolicy policy }

/-- The number of octets held back because their element is not complete. -/
def buffered (reader : Reader) : Nat :=
  reader.input.available

/-- Whether the block so far stops inside a representation. -/
def isPartial (reader : Reader) : Bool :=
  0 < reader.buffered || reader.decoder.isPartial

/-- A short description for diagnostics. -/
def description (reader : Reader) : String :=
  "HpackDecoder \x7b buffered: " ++ toString reader.buffered ++
    ", table_size: " ++ toString reader.decoder.table.size ++ " \x7d"

end Reader

end HeaderCompression.Block
