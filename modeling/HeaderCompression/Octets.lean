/-!
# Octet strings

Header names, header values and everything that travels on the wire are strings of octets, held
as lists so that readers can take them apart from the front. Nothing here assumes that an octet
string is text; `HeaderCompression.Octets.Text` says how one is displayed.
-/

namespace HeaderCompression

/-- A string of octets. -/
abbrev Octets := List UInt8

namespace Octets

/-- The octets of a text in UTF-8. -/
def ofText (text : String) : Octets :=
  text.toUTF8.data.toList

end Octets

end HeaderCompression
