import HeaderCompression.Wire.StringLiteral

/-!
# Representations

A header block is a sequence of representations. One refers to a field by its index, one spells out
a field whose name may be an index, and one changes the capacity of the dynamic table. The high
bits of the first octet tell them apart, and its low bits begin an index or a capacity.
-/

namespace HeaderCompression.Wire

/-- What a literal does to the dynamic table. -/
inductive Indexing where
  /-- The field is inserted. -/
  | incremental
  /-- The field is not inserted. -/
  | without
  /-- The field is not inserted, by this or any later sender. -/
  | never
  deriving DecidableEq, Repr, Inhabited

/-! ## First octets -/

/-- What the first octet of a representation announces. -/
inductive Opening where
  | indexed
  | literal (indexing : Indexing)
  | sizeUpdate
  deriving DecidableEq, Repr, Inhabited

namespace Opening

/-- The high bits of the first octet. -/
def mask : Opening → UInt8
  | indexed => 0x80
  | literal .incremental => 0x40
  | sizeUpdate => 0x20
  | literal .never => 0x10
  | literal .without => 0x00

/-- The width of the low bits, where the index or the capacity begins. -/
def width : Opening → Nat
  | indexed => 7
  | literal .incremental => 6
  | sizeUpdate => 5
  | literal .never => 4
  | literal .without => 4

/-- The announcement is given by the highest one among the four highest bits. -/
def ofOctet (octet : UInt8) : Opening :=
  if 0x80 ≤ octet then indexed
  else if 0x40 ≤ octet then literal .incremental
  else if 0x20 ≤ octet then sizeUpdate
  else if 0x10 ≤ octet then literal .never
  else literal .without

end Opening

/-! ## Whole representations -/

/-- How a literal gives its name. -/
inductive LiteralName where
  | indexed (index : Nat)
  | literal (name : Octets)
  deriving DecidableEq, Repr, Inhabited

inductive HeaderRepresentation where
  | indexed (index : Nat)
  | literal (indexing : Indexing) (name : LiteralName) (value : Octets)
  | sizeUpdate (capacity : Nat)
  deriving DecidableEq, Repr, Inhabited

/-- Index zero stands for no index and is followed by the name itself. -/
def LiteralName.encode (mode : HuffmanMode) (indexing : Indexing) : LiteralName → Octets
  | indexed index =>
    PrefixedInteger.encode (Opening.literal indexing).mask (Opening.literal indexing).width index
  | literal name =>
    PrefixedInteger.encode (Opening.literal indexing).mask (Opening.literal indexing).width 0 ++
      StringLiteral.encode mode name

/-- The octets of a representation. -/
def HeaderRepresentation.encode (mode : HuffmanMode) : HeaderRepresentation → Octets
  | indexed index => PrefixedInteger.encode Opening.indexed.mask Opening.indexed.width index
  | literal indexing name value =>
    name.encode mode indexing ++ StringLiteral.encode mode value
  | sizeUpdate capacity =>
    PrefixedInteger.encode Opening.sizeUpdate.mask Opening.sizeUpdate.width capacity

end HeaderCompression.Wire
