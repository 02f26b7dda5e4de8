import HeaderCompression.Wire.StringLiteral

/-!
# Settings

What the two ends of a connection are set up with. Both ends have to know the same table size; it
is agreed on outside of header blocks.
-/

namespace HeaderCompression

/-- The table size that a connection starts with when nothing is agreed on. -/
def defaultTableSize : Nat := 4096

/-- The header list budget when none is chosen. -/
def defaultListSize : Nat := 8192

structure DecoderSettings where
  /-- The budget for the lengths of all names and values of one block. -/
  listSizeLimit : Nat := defaultListSize
  /-- The capacity of the dynamic table, and the largest one that the peer may ask for. -/
  tableSizeLimit : Nat := defaultTableSize
  deriving DecidableEq, Repr, Inhabited

structure EncoderSettings where
  /-- The capacity of the dynamic table. -/
  tableCapacity : Nat := defaultTableSize
  /-- Whether new fields are inserted into the table. -/
  useIndexing : Bool := true
  huffman : Wire.HuffmanMode := .auto
  deriving DecidableEq, Repr, Inhabited

end HeaderCompression
