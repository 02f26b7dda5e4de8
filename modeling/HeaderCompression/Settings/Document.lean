import HeaderCompression.Settings

/-!
# Settings documents

Settings can be read from a document of named members. A member that is missing keeps its default,
members of other names are passed over, and of two members of one name the later one counts.
Everything else that is not as expected makes the document invalid as a whole.
-/

namespace HeaderCompression

/-- A value in a document. Numbers are kept as they are written. -/
inductive Document where
  | null
  | boolean (value : Bool)
  | number (literal : String)
  | text (value : String)
  | list (items : List Document)
  | object (members : List (String × Document))
  deriving Inhabited

namespace Document

/-- A size is a number written with digits alone that fits in 64 bits. -/
def size? : Document → Option Nat
  | number literal =>
    if literal.toList.all Char.isDigit then
      literal.toNat?.filter (· ≤ Size.largest)
    else none
  | _ => none

def boolean? : Document → Option Bool
  | boolean value => some value
  | _ => none

def huffmanModeNamed? : String → Option Wire.HuffmanMode
  | "auto" => some .auto
  | "always" => some .always
  | "never" => some .never
  | _ => none

/-- A mode is given by its name, or by an object with nothing but an empty member of that name. -/
def huffmanMode? : Document → Option Wire.HuffmanMode
  | text name => huffmanModeNamed? name
  | object [(name, null)] => huffmanModeNamed? name
  | _ => none

/-- The last member of a name. -/
def member? (members : List (String × Document)) (name : String) : Option Document :=
  (members.reverse.find? fun member ↦ member.1 = name).map Prod.snd

/-- Read a member, or take the default if there is none. -/
def memberOr {α : Type} (read? : Document → Option α) (default : α)
    (members : List (String × Document)) (name : String) : Option α :=
  match member? members name with
  | none => some default
  | some value => read? value

end Document

namespace DecoderSettings

/-- The settings that a document gives. -/
def ofDocument? : Document → Option DecoderSettings
  | .object members => do
    let listSizeLimit ← Document.memberOr Document.size? defaultListSize members "max_header_size"
    let tableSizeLimit ←
      Document.memberOr Document.size? defaultTableSize members "max_header_table_size"
    return { listSizeLimit, tableSizeLimit }
  | _ => none

end DecoderSettings

namespace EncoderSettings

/-- The settings that a document gives. -/
def ofDocument? : Document → Option EncoderSettings
  | .object members => do
    let tableCapacity ←
      Document.memberOr Document.size? defaultTableSize members "max_header_table_size"
    let useIndexing ← Document.memberOr Document.boolean? true members "use_indexing"
    let huffman ← Document.memberOr Document.huffmanMode? .auto members "huffman"
    return { tableCapacity, useIndexing, huffman }
  | _ => none

end EncoderSettings

end HeaderCompression
