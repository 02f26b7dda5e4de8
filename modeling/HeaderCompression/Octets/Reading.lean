import HeaderCompression.DecodingError
import HeaderCompression.Octets

/-!
# Readings from the front of an octet string

A reader looks at the octets that have arrived so far. It either completes, or finds that the
element continues beyond what has arrived, or fails. An incomplete reading takes nothing, so the
same reader can be run again when more octets have arrived.
-/

namespace HeaderCompression.Octets

/-- The outcome of reading one element of type `α`. -/
inductive Reading (α : Type) where
  | complete (value : α) (rest : Octets)
  | incomplete
  | failed (error : DecodingError) (rest : Octets)
  deriving DecidableEq, Repr

namespace Reading

variable {α β : Type}

def map (convert : α → β) : Reading α → Reading β
  | complete value rest => complete (convert value) rest
  | incomplete => incomplete
  | failed error rest => failed error rest

@[simp]
theorem map_complete (convert : α → β) (value : α) (rest : Octets) :
    (complete value rest).map convert = complete (convert value) rest := rfl

@[simp]
theorem map_incomplete (convert : α → β) : (incomplete : Reading α).map convert = incomplete := rfl

@[simp]
theorem map_failed (convert : α → β) (error : DecodingError) (rest : Octets) :
    (failed error rest : Reading α).map convert = failed error rest := rfl

end Reading

/-- The first octet. -/
def first : Octets → Reading UInt8
  | [] => .incomplete
  | octet :: rest => .complete octet rest

end HeaderCompression.Octets
