import HeaderCompression.Octets

/-!
# Octet strings as text

Fields are displayed as UTF-8. Octets that are no part of a well-formed sequence are replaced:
every maximal run that could still have begun a sequence becomes one replacement character, and so
does every octet that can begin none. The reader below is an automaton over the octets; between
two octets it knows how many continuation octets are owed and in which range the next one lies.
-/

namespace HeaderCompression.Octets

/-- What is displayed for an ill-formed run. -/
def replacementCharacter : Char := '\uFFFD'

/-- Where the reader stands between two octets. -/
inductive TextState where
  | boundary
  /-- Inside a sequence: the scalar bits read so far, the continuation octets still owed, and
  the least and greatest octet that may come next. -/
  | within (scalar owed low high : Nat)
  deriving DecidableEq, Repr

namespace TextState

/-- Begin a sequence: the character that is complete at once, if any, and the next state. -/
def start (octet : Nat) : Option Char × TextState :=
  if octet < 0x80 then (some (Char.ofNat octet), .boundary)
  else if 0xC2 ≤ octet ∧ octet ≤ 0xDF then (none, .within (octet - 0xC0) 1 0x80 0xBF)
  else if octet = 0xE0 then (none, .within 0 2 0xA0 0xBF)
  else if octet = 0xED then (none, .within 0xD 2 0x80 0x9F)
  else if 0xE1 ≤ octet ∧ octet ≤ 0xEF then (none, .within (octet - 0xE0) 2 0x80 0xBF)
  else if octet = 0xF0 then (none, .within 0 3 0x90 0xBF)
  else if 0xF1 ≤ octet ∧ octet ≤ 0xF3 then (none, .within (octet - 0xF0) 3 0x80 0xBF)
  else if octet = 0xF4 then (none, .within 4 3 0x80 0x8F)
  else (some replacementCharacter, .boundary)

/-- Read one octet: the characters that it completes, and the next state. An octet that cannot
continue the sequence closes the ill-formed run and begins anew. -/
def step : TextState → Nat → List Char × TextState
  | .boundary, octet =>
    let next := start octet
    (next.1.toList, next.2)
  | .within scalar owed low high, octet =>
    if low ≤ octet ∧ octet ≤ high then
      let scalar := scalar * 64 + octet % 64
      if owed ≤ 1 then ([Char.ofNat scalar], .boundary)
      else ([], .within scalar (owed - 1) 0x80 0xBF)
    else
      let next := start octet
      (replacementCharacter :: next.1.toList, next.2)

/-- The characters of the remaining octets; a sequence that the end cuts off is ill-formed. -/
def characters : TextState → Octets → List Char
  | .boundary, [] => []
  | .within .., [] => [replacementCharacter]
  | state, octet :: rest =>
    let next := state.step octet.toNat
    next.1 ++ characters next.2 rest

end TextState

/-- The text that an octet string displays as. -/
def text (octets : Octets) : String :=
  String.ofList (TextState.boundary.characters octets)

end HeaderCompression.Octets
