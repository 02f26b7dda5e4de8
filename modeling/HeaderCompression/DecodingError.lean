/-!
# Decoding errors

Every way in which a header block can be refused. All of them are fatal for a connection and close
it with the same code; exceeding the header list budget is no error and is not listed here.
-/

namespace HeaderCompression

inductive DecodingError where
  /-- An index that neither table holds. -/
  | illegalIndex (index : Nat)
  /-- An integer whose continuation does not fit in 31 bits. -/
  | integerOverflow
  /-- A coded string whose last bits are not fewer than eight ones. -/
  | invalidPadding
  /-- A coded string that holds the end-of-string symbol. -/
  | endOfStringDecoded
  /-- A coded string that runs into an unassigned codeword. -/
  | unassignedCodeword
  /-- A literal header without a name. -/
  | emptyName
  /-- A table size above the largest one allowed. -/
  | capacityTooLarge (requested largest : Nat)
  deriving DecidableEq, Repr

namespace DecodingError

/-- The error code that a connection is closed with. -/
def compressionErrorCode : Nat := 9

def code (_ : DecodingError) : Nat :=
  compressionErrorCode

/-- Whether the octets themselves are malformed, rather than an index or a table size. -/
def isDecompressionFailure : DecodingError → Bool
  | illegalIndex _ => false
  | capacityTooLarge _ _ => false
  | _ => true

def message : DecodingError → String
  | illegalIndex index => "illegal index value: " ++ toString index
  | integerOverflow => "decompression failure: integer overflow"
  | invalidPadding => "decompression failure: invalid huffman padding"
  | endOfStringDecoded => "decompression failure: EOS decoded"
  | unassignedCodeword => "decompression failure: invalid huffman code"
  | emptyName => "decompression failure: empty header name"
  | capacityTooLarge requested largest =>
    "invalid dynamic table size " ++ toString requested ++ " (max " ++ toString largest ++ ")"

end DecodingError

end HeaderCompression
