import HeaderCompression.Decoder

/-!
# Stages kept in registers

A decoder can keep what it has read of a representation in registers that all stages share. A step
overwrites the registers that it needs and leaves what the others hold, and so does a step that
fails. The end of a block resets the budget, the state, the indexing and the name, and nothing else.
-/

namespace HeaderCompression

open Octets Table Wire

/-- The element that comes next. -/
inductive RegisterState where
  | boundary
  | capacity
  | index
  | nameIndex
  | nameLengthOpening
  | nameLength
  | name
  | skippedName
  | valueLengthOpening
  | valueLength
  | value
  | skippedValue
  deriving DecidableEq, Repr

structure RegisterDecoder where
  table : DynamicTable
  budget : Budget
  tableSizeLimit : Nat
  state : RegisterState := .boundary
  indexing : Indexing := .without
  /-- The low bits of the octet that an index, a capacity or a length begins in. -/
  index : Nat := 0
  huffman : Bool := false
  /-- The name of the literal being read, or nothing if the name is passed over. -/
  name : Octets := []
  nameLength : Nat := 0
  valueLength : Nat := 0
  skipLength : Nat := 0

namespace RegisterDecoder

/-- A decoder at the start of a block with a given table, whose registers were never used. -/
def ofTable (table : DynamicTable) (settings : DecoderSettings) : RegisterDecoder where
  table := table
  budget := { limit := settings.listSizeLimit }
  tableSizeLimit := settings.tableSizeLimit

def ofSettings (settings : DecoderSettings) : RegisterDecoder :=
  ofTable (.ofCapacity settings.tableSizeLimit .fifo) settings

def isPartial (registers : RegisterDecoder) : Bool :=
  registers.state ≠ .boundary

/-! ## Capacity -/

def resize (registers : RegisterDecoder) (capacity : Nat) :
    Except DecodingError RegisterDecoder :=
  if registers.tableSizeLimit < capacity then
    .error (.capacityTooLarge capacity registers.tableSizeLimit)
  else .ok { registers with table := registers.table.setCapacity capacity }

def setTableSizeLimit (registers : RegisterDecoder) (limit : Nat) : RegisterDecoder :=
  { registers with
    tableSizeLimit := limit
    table :=
      if limit < registers.table.capacity then registers.table.setCapacity limit
      else registers.table }

def setPolicy (registers : RegisterDecoder) (policy : EvictionPolicy) : RegisterDecoder :=
  { registers with table := registers.table.setPolicy policy }

/-! ## Elements -/

/-- What an element leads to, and the registers after it. -/
abbrev Reaction := Except DecodingError (Option Header) × RegisterDecoder

/-- Account for a header, which is dropped if the budget does not admit it. -/
def account (registers : RegisterDecoder) (header : Header) : Option Header × RegisterDecoder :=
  if registers.budget.admits header.field.length then
    (some header, { registers with budget := registers.budget.spend header.field.length })
  else (none, { registers with budget := registers.budget.exhaust })

def indexedHeader (registers : RegisterDecoder) (index : Nat) : Reaction :=
  match IndexSpace.resolve registers.table index with
  | .error error => (.error error, registers)
  | .ok field =>
    let accounted := registers.account { field }
    (.ok accounted.1, { accounted.2 with state := .boundary })

def sizeUpdate (registers : RegisterDecoder) (capacity : Nat) : Reaction :=
  match registers.resize capacity with
  | .error error => (.error error, registers)
  | .ok resized => (.ok none, { resized with state := .boundary })

def indexedName (registers : RegisterDecoder) (index : Nat) : Reaction :=
  match IndexSpace.resolve registers.table index with
  | .error error => (.error error, registers)
  | .ok field => (.ok none, { registers with name := field.name, state := .valueLengthOpening })

/-- The low bits of a literal are known, which are all ones if they are `ones`. -/
def literalNameIndex (registers : RegisterDecoder) (ones : Nat) : Reaction :=
  if registers.index = 0 then (.ok none, { registers with state := .nameLengthOpening })
  else if registers.index = ones then (.ok none, { registers with state := .nameIndex })
  else registers.indexedName registers.index

/-- The first octet of a representation. -/
def opening (registers : RegisterDecoder) (octet : UInt8) : Reaction :=
  if octet &&& 0x80 ≠ 0 then
    let begun := { registers with index := (octet &&& 0x7f).toNat }
    if begun.index = 0 then (.error (.illegalIndex 0), begun)
    else if begun.index = 0x7f then (.ok none, { begun with state := .index })
    else begun.indexedHeader begun.index
  else if octet &&& 0x40 ≠ 0 then
    literalNameIndex
      { registers with indexing := .incremental, index := (octet &&& 0x3f).toNat } 0x3f
  else if octet &&& 0x20 ≠ 0 then
    let begun := { registers with index := (octet &&& 0x1f).toNat }
    if begun.index = 0x1f then (.ok none, { begun with state := .capacity })
    else begun.sizeUpdate begun.index
  else
    literalNameIndex
      { registers with
        indexing := if octet &&& 0x10 ≠ 0 then .never else .without
        index := (octet &&& 0x0f).toNat } 0x0f

/-- Whether a literal that is over the budget may have to be inserted into the table. A table that
is too small for it is emptied. -/
def mustIndex (registers : RegisterDecoder) (length : Nat) : Bool × RegisterDecoder :=
  if registers.indexing ≠ .incremental then (false, registers)
  else if registers.table.capacity < length + Field.overhead then
    (false, { registers with table := registers.table.clear })
  else (true, registers)

/-- Decide whether a literal of at least `length` octets is passed over. -/
def passesOver (registers : RegisterDecoder) (length : Nat) : Bool × RegisterDecoder :=
  if registers.budget.admits length then (false, registers)
  else
    let needed := mustIndex { registers with budget := registers.budget.exhaust } length
    (!needed.1, needed.2)

def nameLengthKnown (registers : RegisterDecoder) : Reaction :=
  if registers.nameLength = 0 then (.error .emptyName, registers)
  else
    let decided := registers.passesOver
      (StringLiteral.minimumDecodedLength registers.huffman registers.nameLength)
    if decided.1 then
      (.ok none,
        { decided.2 with name := [], skipLength := registers.nameLength, state := .skippedName })
    else (.ok none, { decided.2 with state := .name })

def nameLengthOpening (registers : RegisterDecoder) (octet : UInt8) : Reaction :=
  let begun :=
    { registers with huffman := octet &&& 0x80 ≠ 0, index := (octet &&& 0x7f).toNat }
  if begun.index = 0x7f then (.ok none, { begun with state := .nameLength })
  else nameLengthKnown { begun with nameLength := begun.index }

def nameKnown (registers : RegisterDecoder) (name : Octets) : Reaction :=
  if name = [] then (.error .emptyName, registers)
  else (.ok none, { registers with name, state := .valueLengthOpening })

/-- Complete a literal. -/
def insertHeader (registers : RegisterDecoder) (name value : Octets) : Reaction :=
  let accounted := registers.account
    { field := ⟨name, value⟩, sensitive := registers.indexing = .never }
  let inserted :=
    if registers.indexing = .incremental then accounted.2.table.add ⟨name, value⟩
    else accounted.2.table
  (.ok accounted.1, { accounted.2 with table := inserted, state := .boundary })

def valueLengthKnown (registers : RegisterDecoder) : Reaction :=
  let decided :=
    if registers.name = [] then (true, registers)
    else registers.passesOver (registers.name.length +
      StringLiteral.minimumDecodedLength registers.huffman registers.valueLength)
  if decided.1 then
    (.ok none,
      { decided.2 with
        skipLength := registers.valueLength
        state := if registers.valueLength = 0 then .boundary else .skippedValue })
  else if registers.valueLength = 0 then
    insertHeader { decided.2 with name := [] } registers.name []
  else (.ok none, { decided.2 with state := .value })

def valueLengthOpening (registers : RegisterDecoder) (octet : UInt8) : Reaction :=
  let begun :=
    { registers with huffman := octet &&& 0x80 ≠ 0, index := (octet &&& 0x7f).toNat }
  if begun.index = 0x7f then (.ok none, { begun with state := .valueLength })
  else valueLengthKnown { begun with valueLength := begun.index }

def valueKnown (registers : RegisterDecoder) (value : Octets) : Reaction :=
  insertHeader { registers with name := [] } registers.name value

/-! ## Steps -/

inductive Step where
  | advanced (registers : RegisterDecoder) (header? : Option Header) (rest : Octets)
  | waiting (registers : RegisterDecoder) (rest : Octets)
  /-- What the step has overwritten stays overwritten. -/
  | failed (registers : RegisterDecoder) (error : DecodingError) (rest : Octets)

def stepWith {α : Type} (registers : RegisterDecoder) (unread : Octets)
    (reader : Octets → Reading α) (react : α → Reaction) : Step :=
  match reader unread with
  | .complete element rest =>
    match react element with
    | (.ok header?, registers) => .advanced registers header? rest
    | (.error error, registers) => .failed registers error rest
  | .incomplete => .waiting registers unread
  | .failed error rest => .failed registers error rest

/-- Pass over as many octets as are left to be passed over and have arrived. -/
def stepSkipping (registers : RegisterDecoder) (unread : Octets) (done : RegisterState) : Step :=
  let skipped := min registers.skipLength unread.length
  let passed := { registers with skipLength := registers.skipLength - skipped }
  if 0 < passed.skipLength then .waiting passed (unread.drop skipped)
  else .advanced { passed with state := done } none (unread.drop skipped)

def step (registers : RegisterDecoder) (unread : Octets) : Step :=
  match registers.state with
  | .boundary => registers.stepWith unread first registers.opening
  | .capacity =>
    registers.stepWith unread PrefixedInteger.readContinuation fun rest ↦
      registers.sizeUpdate (registers.index + rest)
  | .index =>
    registers.stepWith unread PrefixedInteger.readContinuation fun rest ↦
      registers.indexedHeader (registers.index + rest)
  | .nameIndex =>
    registers.stepWith unread PrefixedInteger.readContinuation fun rest ↦
      registers.indexedName (registers.index + rest)
  | .nameLengthOpening => registers.stepWith unread first registers.nameLengthOpening
  | .nameLength =>
    registers.stepWith unread PrefixedInteger.readContinuation fun rest ↦
      nameLengthKnown { registers with nameLength := registers.index + rest }
  | .name =>
    registers.stepWith unread (StringLiteral.readPayload registers.huffman registers.nameLength)
      registers.nameKnown
  | .skippedName => registers.stepSkipping unread .valueLengthOpening
  | .valueLengthOpening => registers.stepWith unread first registers.valueLengthOpening
  | .valueLength =>
    registers.stepWith unread PrefixedInteger.readContinuation fun rest ↦
      valueLengthKnown { registers with valueLength := registers.index + rest }
  | .value =>
    registers.stepWith unread (StringLiteral.readPayload registers.huffman registers.valueLength)
      registers.valueKnown
  | .skippedValue => registers.stepSkipping unread .boundary

/-! ## Runs -/

structure Outcome where
  registers : RegisterDecoder
  headers : List Header
  rest : Octets
  error? : Option DecodingError := none

def Outcome.after (header? : Option Header) (outcome : Outcome) : Outcome :=
  { outcome with headers := header?.toList ++ outcome.headers }

def run : (steps : Nat) → RegisterDecoder → Octets → Outcome
  | 0, registers, unread => { registers, headers := [], rest := unread }
  | _, registers, [] => { registers, headers := [], rest := [] }
  | steps + 1, registers, unread =>
    match registers.step unread with
    | .advanced registers header? rest => (run steps registers rest).after header?
    | .waiting registers rest => { registers, headers := [], rest }
    | .failed registers error rest => { registers, headers := [], rest, error? := some error }

def decode (registers : RegisterDecoder) (queue : Queue) : Outcome × Queue :=
  let outcome := registers.run queue.unread.length queue.unread
  (outcome, (queue.leave outcome.rest).setMark)

/-- The registers that are not named here keep what they hold. -/
def endBlock (registers : RegisterDecoder) : Bool × RegisterDecoder :=
  (registers.budget.isExceeded,
    { registers with
      budget := registers.budget.reset
      state := .boundary
      indexing := .without
      name := [] })

end RegisterDecoder

end HeaderCompression
