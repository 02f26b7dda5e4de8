import HeaderCompression.Block.Reader
import HeaderCompression.Block.Writer

/-!
# Connections

One direction of a connection is a block writer whose octets a block reader receives, cut into
fragments on the way. The two ends are in step if their dynamic tables hold the same entries.
-/

namespace HeaderCompression

open Block Table

structure Connection where
  writer : Writer
  reader : Reader

namespace Connection

def ofSettings (encoder : EncoderSettings) (decoder : DecoderSettings) : Connection where
  writer := .ofSettings encoder
  reader := .ofSettings decoder

/-! ## Sending -/

/-- Cut octets into pieces of `length` octets, the last one possibly shorter. -/
def pieces (length : Nat) : Octets → List Octets
  | [] => []
  | octet :: rest =>
    (octet :: rest.take (length - 1)) :: pieces length (rest.drop (length - 1))
termination_by octets => octets.length
decreasing_by
  simp only [List.length_cons, List.length_drop]
  omega

/-- The fragments that a block travels in. Length zero stands for one fragment with everything. -/
def fragments (length : Nat) (block : Octets) : List Octets :=
  if length = 0 then [block] else pieces length block

theorem pieces_flatten (length : Nat) (block : Octets) : (pieces length block).flatten = block := by
  fun_induction pieces length block with
  | case1 => rfl
  | case2 octet rest hrest =>
    rw [List.flatten_cons, hrest, List.cons_append, List.take_append_drop]

/-- Nothing is lost or added on the way. -/
theorem fragments_flatten (length : Nat) (block : Octets) :
    (fragments length block).flatten = block := by
  by_cases hlength : length = 0
  · simp [fragments, hlength]
  · simp [fragments, hlength, pieces_flatten]

/-- What the sending of one block came to. -/
structure Delivery where
  wire : Octets
  headers : List Header
  /-- Whether headers were dropped for exceeding the budget. -/
  truncated : Bool
  error? : Option DecodingError

/-- Send headers as one block, cut into fragments on the way, and end the block. -/
def send (connection : Connection) (headers : List Header) (cut : Octets → List Octets) :
    Delivery × Connection :=
  let written := connection.writer.encode headers
  let received := connection.reader.decodeAll (cut written.1)
  let ended := received.reader.endBlock
  ({ wire := written.1
     headers := received.headers
     truncated := ended.1
     error? := received.error? },
    { writer := written.2, reader := ended.2 })

/-! ## Adjustments between blocks -/

/-- Ask the writer for a table size. -/
def requestCapacity (connection : Connection) (capacity : Nat) : Connection :=
  { connection with writer := connection.writer.requestCapacity capacity }

/-- Change the largest table size that the reader accepts. -/
def setTableSizeLimit (connection : Connection) (limit : Nat) : Connection :=
  { connection with reader := connection.reader.setTableSizeLimit limit }

/-- Set the eviction policy of both ends. -/
def setPolicy (connection : Connection) (policy : EvictionPolicy) : Connection where
  writer := connection.writer.setPolicy policy
  reader := connection.reader.setPolicy policy

/-- Whether both dynamic tables hold the same entries in the same order. -/
def inStep (connection : Connection) : Bool :=
  connection.writer.encoder.table.toList = connection.reader.decoder.table.toList

end Connection

end HeaderCompression
