import HeaderCompression.Wire.HeaderRepresentation

/-!
# Stages of a representation

A header block arrives in fragments that end anywhere. Between two steps the decoder knows which
element of a representation comes next and everything that the earlier elements said. Nothing is
kept of a representation that is complete.
-/

namespace HeaderCompression

open Octets Wire

/-- How far the length of a string literal has been read. -/
inductive LengthPart where
  | opening
  /-- The seven low bits of the first octet were ones, and a continuation follows. -/
  | continuation (huffman : Bool)
  deriving DecidableEq, Repr

/-- The element that comes next. -/
inductive Stage where
  /-- The first octet of a representation. -/
  | boundary
  /-- The continuation of an index or a capacity. -/
  | index (opening : Opening)
  | nameLength (indexing : Indexing) (part : LengthPart)
  | name (indexing : Indexing) (huffman : Bool) (length : Nat)
  /-- The rest of a name that nobody needs. -/
  | skippedName (indexing : Indexing) (remaining : Nat)
  /-- The length of a value; there is no name if the name was skipped. -/
  | valueLength (indexing : Indexing) (name? : Option Octets) (part : LengthPart)
  | value (indexing : Indexing) (name : Octets) (huffman : Bool) (length : Nat)
  /-- The rest of a value that nobody needs. -/
  | skippedValue (remaining : Nat)
  deriving DecidableEq, Repr

/-- What reading one part of a length yields. -/
inductive LengthReading where
  | toBeContinued (huffman : Bool)
  | known (huffman : Bool) (length : Nat)
  deriving DecidableEq, Repr

/-- What the first octet of a string literal says. -/
def LengthReading.ofOctet (octet : UInt8) : LengthReading :=
  let huffman : Bool := StringLiteral.huffmanFlag ≤ octet
  match PrefixedInteger.lowBits? StringLiteral.lengthWidth octet with
  | some length => known huffman length
  | none => toBeContinued huffman

/-- Read the part of a length that comes next. -/
def LengthPart.read : LengthPart → Octets → Reading LengthReading
  | opening, octets => (first octets).map .ofOctet
  | continuation huffman, octets =>
    (PrefixedInteger.readContinuation octets).map fun rest ↦
      .known huffman (Bits.ones StringLiteral.lengthWidth + rest)

end HeaderCompression
