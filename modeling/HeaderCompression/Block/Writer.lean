import HeaderCompression.Encoder

/-!
# Writing header blocks

A block writer is an encoder that puts off changes of the table size until the next block begins.
Of several changes only two can matter: the smallest size decides which entries are left, and the
latest one is the capacity from then on. The block begins with these, the smallest first, unless it
is also the latest.
-/

namespace HeaderCompression.Block

open Table

/-- The sizes asked for since the last block. -/
structure PendingResize where
  smallest : Nat
  latest : Nat
  deriving DecidableEq, Repr, Inhabited

structure Writer where
  encoder : Encoder
  pending? : Option PendingResize := none

namespace Writer

def ofSettings (settings : EncoderSettings) : Writer where
  encoder := .ofSettings settings

/-- Ask for a table size. -/
def requestCapacity (writer : Writer) (capacity : Nat) : Writer :=
  { writer with
    pending? := some <|
      match writer.pending? with
      | some pending => ⟨min pending.smallest capacity, capacity⟩
      | none => ⟨capacity, capacity⟩ }

/-- Carry out the size changes that were put off. -/
def announce (encoder : Encoder) : Option PendingResize → Octets × Encoder
  | none => ([], encoder)
  | some pending =>
    if pending.smallest < pending.latest then
      let shrunk := encoder.resize pending.smallest
      let settled := shrunk.2.resize pending.latest
      (shrunk.1 ++ settled.1, settled.2)
    else encoder.resize pending.latest

/-- Encode headers as one block. -/
def encode (writer : Writer) (headers : List Header) : Octets × Writer :=
  let announced := announce writer.encoder writer.pending?
  let encoded := announced.2.encode headers
  (announced.1 ++ encoded.1, { encoder := encoded.2 })

def setPolicy (writer : Writer) (policy : EvictionPolicy) : Writer :=
  { writer with encoder := writer.encoder.setPolicy policy }

/-- A short description for diagnostics. -/
def description (writer : Writer) : String :=
  "HpackEncoder \x7b table_size: " ++ toString writer.encoder.table.size ++
    ", pending_size_update: " ++ pendingDescription ++ " \x7d"
where
  pendingDescription : String :=
    match writer.pending? with
    | none => "None"
    | some pending =>
      "Some((" ++ toString pending.smallest ++ ", " ++ toString pending.latest ++ "))"

end Writer

end HeaderCompression.Block
