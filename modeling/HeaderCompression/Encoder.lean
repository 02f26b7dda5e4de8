import HeaderCompression.Settings
import HeaderCompression.Table.IndexSpace
import HeaderCompression.Wire.HeaderRepresentation

/-!
# The encoder

The encoder chooses a representation for each header and keeps the dynamic table that its choices
give the peer. A sensitive header is spelled out as a literal that nobody may index, whatever the
tables hold; only its name may be an index. Other headers are sent as an index where one refers to
them, and as a literal otherwise.
-/

namespace HeaderCompression

open Table Wire

structure Encoder where
  table : DynamicTable
  useIndexing : Bool
  huffman : HuffmanMode

namespace Encoder

def ofSettings (settings : EncoderSettings) : Encoder where
  table := .ofCapacity settings.tableCapacity .fifo
  useIndexing := settings.useIndexing
  huffman := settings.huffman

/-- A literal whose name is an index if there is one. -/
def literal (indexing : Indexing) (field : Field) (nameIndex? : Option Nat) :
    HeaderRepresentation :=
  .literal indexing (nameIndex?.elim (.literal field.name) .indexed) field.value

/-- The representation that a header is sent as. Without a dynamic table only the static table is
referred to, and a field too large for the dynamic table is never looked up. -/
def represent (encoder : Encoder) (header : Header) : HeaderRepresentation :=
  let field := header.field
  let nameIndex? := IndexSpace.findName? encoder.table field.name
  if header.sensitive then literal .never field nameIndex?
  else if encoder.table.capacity = 0 then
    match StaticTable.find? field with
    | some index => .indexed index
    | none => literal .without field (StaticTable.findName? field.name)
  else if encoder.table.capacity < field.size then literal .without field nameIndex?
  else
    match IndexSpace.find? encoder.table field with
    | some index => .indexed index
    | none => literal (if encoder.useIndexing then .incremental else .without) field nameIndex?

/-- The table after a header was sent as a representation. -/
def tableAfter (table : DynamicTable) (field : Field) : HeaderRepresentation → DynamicTable
  | .literal .incremental _ _ => table.add field
  | _ => table

/-- Encode one header, whose name must not be empty. -/
def encodeHeader (encoder : Encoder) (header : Header) : Octets × Encoder :=
  let representation := encoder.represent header
  (representation.encode encoder.huffman,
    { encoder with table := tableAfter encoder.table header.field representation })

/-- Encode headers in order. -/
def encode (encoder : Encoder) : List Header → Octets × Encoder
  | [] => ([], encoder)
  | header :: headers =>
    let written := encoder.encodeHeader header
    let others := written.2.encode headers
    (written.1 ++ others.1, others.2)

/-- Change the capacity of the table and announce it. -/
def resize (encoder : Encoder) (capacity : Nat) : Octets × Encoder :=
  ((HeaderRepresentation.sizeUpdate capacity).encode encoder.huffman,
    { encoder with table := encoder.table.setCapacity capacity })

def setPolicy (encoder : Encoder) (policy : EvictionPolicy) : Encoder :=
  { encoder with table := encoder.table.setPolicy policy }

end Encoder

end HeaderCompression
