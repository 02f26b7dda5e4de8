import HeaderCompression.Decoder.Budget
import HeaderCompression.Decoder.Stage
import HeaderCompression.Octets.Queue
import HeaderCompression.Settings
import HeaderCompression.Table.IndexSpace

/-!
# The decoder

The decoder reads one element of a representation per step. A step that finds its element
incomplete takes nothing and leaves the decoder as it was, and so does a step that fails, apart
from the octets that it read. Passing over a string that nobody needs is the one exception: it takes
whatever has arrived.

A literal that the header list budget cannot admit is not kept waiting for: it is passed over as
soon as its length says so, unless the peer inserts it into the dynamic table and it may fit there.
If it cannot fit, the peer's table is empty after the insertion, and so the table is cleared.
-/

namespace HeaderCompression

open Octets Table Wire

structure Decoder where
  table : DynamicTable
  budget : Budget
  /-- The largest capacity that the peer may ask for. -/
  tableSizeLimit : Nat
  stage : Stage := .boundary

namespace Decoder

/-- A decoder at the start of a block with a given table. -/
def ofTable (table : DynamicTable) (settings : DecoderSettings) : Decoder where
  table := table
  budget := { limit := settings.listSizeLimit }
  tableSizeLimit := settings.tableSizeLimit

def ofSettings (settings : DecoderSettings) : Decoder :=
  ofTable (.ofCapacity settings.tableSizeLimit .fifo) settings

/-- Whether a representation has been begun and not completed. -/
def isPartial (decoder : Decoder) : Bool :=
  decoder.stage ≠ .boundary

/-! ## Capacity -/

/-- Change the capacity of the table as a size update from the peer does. -/
def resize (decoder : Decoder) (capacity : Nat) : Except DecodingError Decoder :=
  if decoder.tableSizeLimit < capacity then
    .error (.capacityTooLarge capacity decoder.tableSizeLimit)
  else .ok { decoder with table := decoder.table.setCapacity capacity }

/-- Change the largest capacity, and shrink a table that is larger. -/
def setTableSizeLimit (decoder : Decoder) (limit : Nat) : Decoder :=
  { decoder with
    tableSizeLimit := limit
    table :=
      if limit < decoder.table.capacity then decoder.table.setCapacity limit else decoder.table }

def setPolicy (decoder : Decoder) (policy : EvictionPolicy) : Decoder :=
  { decoder with table := decoder.table.setPolicy policy }

/-! ## Consequences of an element -/

/-- The decoder after an element that was read, and the header that the element completed. -/
abbrev Transition := Except DecodingError (Decoder × Option Header)

/-- Go on with another element. -/
def enter (decoder : Decoder) (stage : Stage) : Transition :=
  .ok ({ decoder with stage }, none)

/-- Complete a representation with a header, which is dropped if the budget does not admit it. -/
def deliver (decoder : Decoder) (header : Header) : Decoder × Option Header :=
  if decoder.budget.admits header.field.length then
    ({ decoder with
        budget := decoder.budget.spend header.field.length
        stage := .boundary },
      some header)
  else ({ decoder with budget := decoder.budget.exhaust, stage := .boundary }, none)

/-- Complete a literal. -/
def deliverLiteral (decoder : Decoder) (indexing : Indexing) (field : Field) :
    Decoder × Option Header :=
  let delivered := decoder.deliver { field, sensitive := indexing = .never }
  match indexing with
  | .incremental => ({ delivered.1 with table := delivered.1.table.add field }, delivered.2)
  | _ => delivered

/-- Decide whether a literal of at least `length` octets is passed over. -/
def passesOver (decoder : Decoder) (indexing : Indexing) (length : Nat) : Bool × Decoder :=
  if decoder.budget.admits length then (false, decoder)
  else
    let decoder := { decoder with budget := decoder.budget.exhaust }
    match indexing with
    | .incremental =>
      if decoder.table.capacity < length + Field.overhead then
        (true, { decoder with table := decoder.table.clear })
      else (false, decoder)
    | _ => (true, decoder)

/-- Pass over a value, which is over at once if it is empty. -/
def skipValue (decoder : Decoder) (length : Nat) : Transition :=
  decoder.enter (if length = 0 then .boundary else .skippedValue length)

/-! ## One rule for each element -/

/-- The index or the capacity of a representation is known. -/
def indexKnown (decoder : Decoder) (opening : Opening) (value : Nat) : Transition :=
  match opening with
  | .indexed => do
    let field ← IndexSpace.resolve decoder.table value
    return decoder.deliver { field }
  | .literal indexing =>
    if value = 0 then decoder.enter (.nameLength indexing .opening)
    else do
      let field ← IndexSpace.resolve decoder.table value
      decoder.enter (.valueLength indexing (some field.name) .opening)
  | .sizeUpdate => do
    let decoder ← decoder.resize value
    decoder.enter .boundary

/-- The first octet of a representation is known. -/
def openingKnown (decoder : Decoder) (octet : UInt8) : Transition :=
  let opening := Opening.ofOctet octet
  match PrefixedInteger.lowBits? opening.width octet with
  | some value => decoder.indexKnown opening value
  | none => decoder.enter (.index opening)

/-- The length of a name is known. -/
def nameLengthKnown (decoder : Decoder) (indexing : Indexing) (huffman : Bool) (length : Nat) :
    Transition :=
  if length = 0 then .error .emptyName
  else
    let decided := decoder.passesOver indexing (StringLiteral.minimumDecodedLength huffman length)
    decided.2.enter
      (if decided.1 then .skippedName indexing length else .name indexing huffman length)

/-- The name of a literal is known. -/
def nameKnown (decoder : Decoder) (indexing : Indexing) (name : Octets) : Transition :=
  if name = [] then .error .emptyName
  else decoder.enter (.valueLength indexing (some name) .opening)

/-- The length of a value is known. -/
def valueLengthKnown (decoder : Decoder) (indexing : Indexing) (name? : Option Octets)
    (huffman : Bool) (length : Nat) : Transition :=
  match name? with
  | none => decoder.skipValue length
  | some name =>
    let decided := decoder.passesOver indexing
      (name.length + StringLiteral.minimumDecodedLength huffman length)
    if decided.1 then decided.2.skipValue length
    else if length = 0 then .ok (decided.2.deliverLiteral indexing ⟨name, []⟩)
    else decided.2.enter (.value indexing name huffman length)

/-! ## Steps -/

/-- The outcome of one step. -/
inductive Step where
  /-- The element was complete. -/
  | advanced (decoder : Decoder) (header? : Option Header) (rest : Octets)
  /-- More octets have to arrive. -/
  | waiting (decoder : Decoder) (rest : Octets)
  | failed (error : DecodingError) (rest : Octets)

/-- Read an element and draw its consequences. -/
def stepWith {α : Type} (decoder : Decoder) (unread : Octets) (reader : Octets → Reading α)
    (consequence : α → Transition) : Step :=
  match reader unread with
  | .complete element rest =>
    match consequence element with
    | .ok (decoder, header?) => .advanced decoder header? rest
    | .error error => .failed error rest
  | .incomplete => .waiting decoder unread
  | .failed error rest => .failed error rest

/-- Pass over as many of `remaining` octets as have arrived. -/
def stepSkipping (decoder : Decoder) (unread : Octets) (remaining : Nat)
    (more : (remaining : Nat) → Stage) (done : Stage) : Step :=
  if unread.length < remaining then
    .waiting { decoder with stage := more (remaining - unread.length) } []
  else .advanced { decoder with stage := done } none (unread.drop remaining)

/-- Read the element that comes next. -/
def step (decoder : Decoder) (unread : Octets) : Step :=
  match decoder.stage with
  | .boundary => decoder.stepWith unread first decoder.openingKnown
  | .index opening =>
    decoder.stepWith unread PrefixedInteger.readContinuation fun rest ↦
      decoder.indexKnown opening (Bits.ones opening.width + rest)
  | .nameLength indexing part =>
    decoder.stepWith unread part.read fun
      | .toBeContinued huffman => decoder.enter (.nameLength indexing (.continuation huffman))
      | .known huffman length => decoder.nameLengthKnown indexing huffman length
  | .name indexing huffman length =>
    decoder.stepWith unread (StringLiteral.readPayload huffman length) fun name ↦
      decoder.nameKnown indexing name
  | .skippedName indexing remaining =>
    decoder.stepSkipping unread remaining (.skippedName indexing)
      (.valueLength indexing none .opening)
  | .valueLength indexing name? part =>
    decoder.stepWith unread part.read fun
      | .toBeContinued huffman =>
        decoder.enter (.valueLength indexing name? (.continuation huffman))
      | .known huffman length => decoder.valueLengthKnown indexing name? huffman length
  | .value indexing name huffman length =>
    decoder.stepWith unread (StringLiteral.readPayload huffman length) fun value ↦
      .ok (decoder.deliverLiteral indexing ⟨name, value⟩)
  | .skippedValue remaining => decoder.stepSkipping unread remaining .skippedValue .boundary

/-! ## Runs -/

/-- What decoding has come to when it stops. -/
structure Outcome where
  decoder : Decoder
  /-- The headers delivered, in order. -/
  headers : List Header
  /-- The octets not read. -/
  rest : Octets
  error? : Option DecodingError := none

/-- Put the header of an earlier step in front. -/
def Outcome.after (header? : Option Header) (outcome : Outcome) : Outcome :=
  { outcome with headers := header?.toList ++ outcome.headers }

/-- Take steps, no more than `steps` of them, while there are octets to read. -/
def run : (steps : Nat) → Decoder → Octets → Outcome
  | 0, decoder, unread => { decoder, headers := [], rest := unread }
  | _, decoder, [] => { decoder, headers := [], rest := [] }
  | steps + 1, decoder, unread =>
    match decoder.step unread with
    | .advanced decoder header? rest => (run steps decoder rest).after header?
    | .waiting decoder rest => { decoder, headers := [], rest }
    | .failed error rest => { decoder, headers := [], rest, error? := some error }

/-- Decode everything that is complete in a queue. Every step that goes on takes an octet, so as
many steps as there are octets suffice. The mark is set where decoding stopped. -/
def decode (decoder : Decoder) (queue : Queue) : Outcome × Queue :=
  let outcome := decoder.run queue.unread.length queue.unread
  (outcome, (queue.leave outcome.rest).setMark)

/-- End a header block, giving up a representation that is not complete, and say whether headers
were dropped. -/
def endBlock (decoder : Decoder) : Bool × Decoder :=
  (decoder.budget.isExceeded,
    { decoder with budget := decoder.budget.reset, stage := .boundary })

end Decoder

end HeaderCompression
