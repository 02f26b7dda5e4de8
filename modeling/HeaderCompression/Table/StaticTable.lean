import HeaderCompression.Field

/-!
# The static table

The static table holds the 61 fields that both ends know beforehand. Index 1 is its first entry.
Entries that share a name stand next to each other.
-/

namespace HeaderCompression.Table.StaticTable

/-- A field given by texts. -/
def ofTexts (name value : String) : Field :=
  ⟨Octets.ofText name, Octets.ofText value⟩

/-- The entries in the order of their indexes. -/
def entries : Array Field := #[
  ofTexts ":authority" "",
  ofTexts ":method" "GET",
  ofTexts ":method" "POST",
  ofTexts ":path" "/",
  ofTexts ":path" "/index.html",
  ofTexts ":scheme" "http",
  ofTexts ":scheme" "https",
  ofTexts ":status" "200",
  ofTexts ":status" "204",
  ofTexts ":status" "206",
  ofTexts ":status" "304",
  ofTexts ":status" "400",
  ofTexts ":status" "404",
  ofTexts ":status" "500",
  ofTexts "accept-charset" "",
  ofTexts "accept-encoding" "gzip, deflate",
  ofTexts "accept-language" "",
  ofTexts "accept-ranges" "",
  ofTexts "accept" "",
  ofTexts "access-control-allow-origin" "",
  ofTexts "age" "",
  ofTexts "allow" "",
  ofTexts "authorization" "",
  ofTexts "cache-control" "",
  ofTexts "content-disposition" "",
  ofTexts "content-encoding" "",
  ofTexts "content-language" "",
  ofTexts "content-length" "",
  ofTexts "content-location" "",
  ofTexts "content-range" "",
  ofTexts "content-type" "",
  ofTexts "cookie" "",
  ofTexts "date" "",
  ofTexts "etag" "",
  ofTexts "expect" "",
  ofTexts "expires" "",
  ofTexts "from" "",
  ofTexts "host" "",
  ofTexts "if-match" "",
  ofTexts "if-modified-since" "",
  ofTexts "if-none-match" "",
  ofTexts "if-range" "",
  ofTexts "if-unmodified-since" "",
  ofTexts "last-modified" "",
  ofTexts "link" "",
  ofTexts "location" "",
  ofTexts "max-forwards" "",
  ofTexts "proxy-authenticate" "",
  ofTexts "proxy-authorization" "",
  ofTexts "range" "",
  ofTexts "referer" "",
  ofTexts "refresh" "",
  ofTexts "retry-after" "",
  ofTexts "server" "",
  ofTexts "set-cookie" "",
  ofTexts "strict-transport-security" "",
  ofTexts "transfer-encoding" "",
  ofTexts "user-agent" "",
  ofTexts "vary" "",
  ofTexts "via" "",
  ofTexts "www-authenticate" ""]

/-- The number of entries. -/
def length : Nat :=
  entries.size

/-- The entry at an index. -/
def get? (index : Nat) : Option Field :=
  if index = 0 then none else entries[index - 1]?

/-- The lowest index of an entry of a name. -/
def findName? (name : Octets) : Option Nat :=
  (entries.findIdx? fun entry ↦ entry.name = name).map (· + 1)

/-- The lowest index of an entry that is a given field. -/
def find? (field : Field) : Option Nat :=
  (entries.findIdx? fun entry ↦ entry = field).map (· + 1)

end HeaderCompression.Table.StaticTable
