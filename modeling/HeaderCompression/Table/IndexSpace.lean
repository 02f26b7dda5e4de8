import HeaderCompression.DecodingError
import HeaderCompression.Table.DynamicTable
import HeaderCompression.Table.StaticTable

/-!
# The index space

Representations refer to both tables by one range of indexes. The static table comes first and the
entries of the dynamic table follow, newest first.
-/

namespace HeaderCompression.Table.IndexSpace

/-- The field that an index refers to. -/
def resolve (table : DynamicTable) (index : Nat) : Except DecodingError Field :=
  let field? :=
    if index ≤ StaticTable.length then StaticTable.get? index
    else table.get? (index - StaticTable.length)
  match field? with
  | some field => .ok field
  | none => .error (.illegalIndex index)

/-- An index of a field; the newest entry of the dynamic table is preferred. -/
def find? (table : DynamicTable) (field : Field) : Option Nat :=
  ((table.find? field).map (· + StaticTable.length)).or (StaticTable.find? field)

/-- An index of a name; the static table is preferred. -/
def findName? (table : DynamicTable) (name : Octets) : Option Nat :=
  (StaticTable.findName? name).or ((table.findName? name).map (· + StaticTable.length))

end HeaderCompression.Table.IndexSpace
