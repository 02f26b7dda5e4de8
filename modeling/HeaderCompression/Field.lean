import HeaderCompression.Octets.Text

/-!
# Header fields

A field is a pair of a name and a value. Tables store fields and charge each one its length plus a
fixed overhead. A header is a field as an application hands it over, together with a mark that its
value is sensitive and must stay out of every table.
-/

namespace HeaderCompression

structure Field where
  name : Octets
  value : Octets
  deriving DecidableEq, Repr, Inhabited

namespace Field

/-- What a table entry costs beyond its name and value. -/
def overhead : Nat := 32

/-- The length of the name and the value together. -/
def length (field : Field) : Nat :=
  field.name.length + field.value.length

/-- What a field costs in a table. -/
def size (field : Field) : Nat :=
  field.length + overhead

/-- Fields are ordered octet by octet, the name before the value. -/
instance : Ord Field :=
  ⟨compareLex (compareOn Field.name) (compareOn Field.value)⟩

instance : Std.TransOrd Field :=
  inferInstanceAs (Std.TransCmp (compareLex (compareOn Field.name) (compareOn Field.value)))

instance : Std.LawfulEqOrd Field where
  compare_self := Std.ReflCmp.compare_self
  eq_of_compare := by
    rintro ⟨name, value⟩ ⟨otherName, otherValue⟩ horder
    have hboth : (compare name otherName).then (compare value otherValue) = .eq := horder
    rw [Ordering.then_eq_eq] at hboth
    rw [Std.LawfulEqCmp.eq_of_compare hboth.1, Std.LawfulEqCmp.eq_of_compare hboth.2]

/-- The display of a field, `name: value`. -/
def display (field : Field) : String :=
  Octets.text field.name ++ ": " ++ Octets.text field.value

end Field

/-- A field and whether its value must never enter a table. -/
structure Header where
  field : Field
  sensitive : Bool := false
  deriving DecidableEq, Repr, Inhabited

end HeaderCompression
