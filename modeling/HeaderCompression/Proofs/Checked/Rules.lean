import HeaderCompression.Proofs.Checked.Counting

/-!
# Checked rules of the decoder

Each element that is read has one rule, which looks up an index, changes the capacity, decides about
a literal or inserts one. The lengths that a rule adds are a name that is short and a payload that
was announced, so no sum leaves its word, and the indexes beyond the static table are those of the
dynamic one.
-/

namespace HeaderCompression.Checked.Rules

open HeaderCompression.Table Octets Wire

/-! ## Rules -/

def resolve (table : DynamicTable) (index : Nat) : Option (Except DecodingError Field) := do
  let field? ←
    if index ≤ StaticTable.length then some (StaticTable.get? index)
    else do
      let place ← difference index StaticTable.length
      Table.get table place
  return match field? with
    | some field => .ok field
    | none => .error (.illegalIndex index)

def resize (decoder : Decoder) (capacity : Nat) : Option (Except DecodingError Decoder) :=
  if decoder.tableSizeLimit < capacity then
    some (.error (.capacityTooLarge capacity decoder.tableSizeLimit))
  else do
    let table ← Table.setCapacity decoder.table capacity
    return .ok { decoder with table }

def setTableSizeLimit (decoder : Decoder) (limit : Nat) : Option Decoder := do
  let table ←
    if limit < decoder.table.capacity then Table.setCapacity decoder.table limit
    else some decoder.table
  return { decoder with tableSizeLimit := limit, table }

def deliverLiteral (decoder : Decoder) (indexing : Indexing) (field : Field) :
    Option (Decoder × Option Header) :=
  let delivered := decoder.deliver { field, sensitive := indexing = .never }
  match indexing with
  | .incremental => do
    let table ← Table.add delivered.1.table field
    return ({ delivered.1 with table }, delivered.2)
  | _ => some delivered

def passesOver (decoder : Decoder) (indexing : Indexing) (length : Nat) : Option (Bool × Decoder) :=
  if decoder.budget.admits length then some (false, decoder)
  else
    let decoder := { decoder with budget := decoder.budget.exhaust }
    match indexing with
    | .incremental => do
      let size ← sum Size.largest length Field.overhead
      return if decoder.table.capacity < size then
          (true, { decoder with table := decoder.table.clear })
        else (false, decoder)
    | _ => some (true, decoder)

def minimumDecodedLength (huffman : Bool) (length : Nat) : Option Nat :=
  if huffman then quotient (Size.saturatingMul length 8) 30 else some length

def indexKnown (decoder : Decoder) (opening : Opening) (value : Nat) :
    Option Decoder.Transition :=
  match opening with
  | .indexed => do
    match ← resolve decoder.table value with
    | .error error => return .error error
    | .ok field => return .ok (decoder.deliver { field })
  | .literal indexing =>
    if value = 0 then some (decoder.enter (.nameLength indexing .opening))
    else do
      match ← resolve decoder.table value with
      | .error error => return .error error
      | .ok field => return decoder.enter (.valueLength indexing (some field.name) .opening)
  | .sizeUpdate => do
    match ← resize decoder value with
    | .error error => return .error error
    | .ok decoder => return decoder.enter .boundary

def openingKnown (decoder : Decoder) (octet : UInt8) : Option Decoder.Transition :=
  let opening := Opening.ofOctet octet
  match PrefixedInteger.lowBits? opening.width octet with
  | some value => indexKnown decoder opening value
  | none => some (decoder.enter (.index opening))

def nameLengthKnown (decoder : Decoder) (indexing : Indexing) (huffman : Bool) (length : Nat) :
    Option Decoder.Transition :=
  if length = 0 then some (.error .emptyName)
  else do
    let minimum ← minimumDecodedLength huffman length
    let decided ← passesOver decoder indexing minimum
    return decided.2.enter
      (if decided.1 then .skippedName indexing length else .name indexing huffman length)

def valueLengthKnown (decoder : Decoder) (indexing : Indexing) (name? : Option Octets)
    (huffman : Bool) (length : Nat) : Option Decoder.Transition :=
  match name? with
  | none => some (decoder.skipValue length)
  | some name => do
    let minimum ← minimumDecodedLength huffman length
    let least ← sum Size.largest name.length minimum
    let decided ← passesOver decoder indexing least
    if decided.1 then return decided.2.skipValue length
    else if length = 0 then
      let delivered ← deliverLiteral decided.2 indexing ⟨name, []⟩
      return .ok delivered
    else return decided.2.enter (.value indexing name huffman length)

/-! ## Results -/

theorem resolve_eq {table : DynamicTable} (hwords : Table.InWords table) (index : Nat) :
    resolve table index = some (IndexSpace.resolve table index) := by
  unfold resolve IndexSpace.resolve
  by_cases hstatic : index ≤ StaticTable.length
  · rw [if_pos hstatic, if_pos hstatic]
    rfl
  · rw [if_neg hstatic, if_neg hstatic,
      bind_of_eq_some (difference_of_le (Nat.le_of_not_le hstatic)), hwords.get_eq]
    rfl

variable {decoder : Decoder}

theorem resize_eq (hready : decoder.Ready) (capacity : Nat) :
    resize decoder capacity = some (decoder.resize capacity) := by
  unfold resize Decoder.resize
  by_cases hlimit : decoder.tableSizeLimit < capacity
  · rw [if_pos hlimit, if_pos hlimit]
  · have hcapacity := Nat.lt_of_le_of_lt (Nat.le_of_not_lt hlimit) hready.counted.limit_lt
    rw [if_neg hlimit, if_neg hlimit, bind_of_eq_some (hready.table.setCapacity_eq hcapacity)]
    rfl

theorem setTableSizeLimit_eq (hready : decoder.Ready) {limit : Nat}
    (hlimit : limit < Bits.values 63) :
    setTableSizeLimit decoder limit = some (decoder.setTableSizeLimit limit) := by
  unfold setTableSizeLimit Decoder.setTableSizeLimit
  by_cases hsmaller : limit < decoder.table.capacity
  · rw [if_pos hsmaller, if_pos hsmaller, bind_of_eq_some (hready.table.setCapacity_eq hlimit)]
    rfl
  · rw [if_neg hsmaller, if_neg hsmaller]
    rfl

theorem deliverLiteral_eq (hready : decoder.Ready) (indexing : Indexing) {field : Field}
    (hfield : field.size ≤ Size.largest) :
    deliverLiteral decoder indexing field = some (decoder.deliverLiteral indexing field) := by
  unfold deliverLiteral Decoder.deliverLiteral
  cases indexing with
  | incremental =>
    dsimp only
    rw [Decoder.table_deliver, bind_of_eq_some (hready.table.add_eq hfield)]
    rfl
  | without => rfl
  | never => rfl

theorem passesOver_eq (decoder : Decoder) (indexing : Indexing) {length : Nat}
    (hlength : length + Field.overhead ≤ Size.largest) :
    passesOver decoder indexing length = some (decoder.passesOver indexing length) := by
  unfold passesOver Decoder.passesOver
  by_cases hadmits : decoder.budget.admits length
  · rw [if_pos hadmits, if_pos hadmits]
  · rw [if_neg hadmits, if_neg hadmits]
    cases indexing with
    | incremental =>
      dsimp only
      rw [bind_of_eq_some (sum_of_le hlength)]
      rfl
    | without => rfl
    | never => rfl

theorem minimumDecodedLength_eq (huffman : Bool) (length : Nat) :
    minimumDecodedLength huffman length =
      some (StringLiteral.minimumDecodedLength huffman length) := by
  have hdivisor : 0 < 30 := by decide
  cases huffman with
  | false => rfl
  | true => exact quotient_of_pos hdivisor

theorem minimumDecodedLength_le_length (huffman : Bool) (length : Nat) :
    StringLiteral.minimumDecodedLength huffman length ≤ length := by
  cases huffman with
  | false => exact Nat.le_refl length
  | true =>
    have hquotient := StringLiteral.minimumDecodedLength_true_le length
    omega

theorem indexKnown_eq (hready : decoder.Ready) (opening : Opening) (value : Nat) :
    indexKnown decoder opening value = some (decoder.indexKnown opening value) := by
  unfold indexKnown Decoder.indexKnown
  cases opening with
  | indexed =>
    dsimp only
    rw [bind_of_eq_some (resolve_eq hready.table value)]
    cases IndexSpace.resolve decoder.table value <;> rfl
  | literal indexing =>
    dsimp only
    by_cases hzero : value = 0
    · rw [if_pos hzero, if_pos hzero]
    · rw [if_neg hzero, if_neg hzero, bind_of_eq_some (resolve_eq hready.table value)]
      cases IndexSpace.resolve decoder.table value <;> rfl
  | sizeUpdate =>
    dsimp only
    rw [bind_of_eq_some (resize_eq hready value)]
    cases decoder.resize value <;> rfl

theorem openingKnown_eq (hready : decoder.Ready) (octet : UInt8) :
    openingKnown decoder octet = some (decoder.openingKnown octet) := by
  unfold openingKnown Decoder.openingKnown
  dsimp only
  cases PrefixedInteger.lowBits? (Opening.ofOctet octet).width octet with
  | none => rfl
  | some value => exact indexKnown_eq hready _ value

/-- A short name, an announced payload and the overhead of an entry are counted by a word. -/
theorem add_overhead_le {known length : Nat} (hknown : known < Bits.values 63)
    (hlength : length ≤ StringLiteral.longestPayload) :
    known + length + Field.overhead ≤ Size.largest := by
  have hlargest := largest_eq
  have hhalf := values_half
  have hlongest : StringLiteral.longestPayload = 2147483774 := rfl
  have hoverhead : Field.overhead = 32 := rfl
  omega

theorem nameLengthKnown_eq (decoder : Decoder) (indexing : Indexing) (huffman : Bool)
    {length : Nat} (hlength : length ≤ StringLiteral.longestPayload) :
    nameLengthKnown decoder indexing huffman length =
      some (decoder.nameLengthKnown indexing huffman length) := by
  unfold nameLengthKnown Decoder.nameLengthKnown
  by_cases hzero : length = 0
  · rw [if_pos hzero, if_pos hzero]
  · have hminimum := Nat.le_trans (minimumDecodedLength_le_length huffman length) hlength
    have hsize := add_overhead_le (Bits.values_pos 63) hminimum
    rw [Nat.zero_add] at hsize
    rw [if_neg hzero, if_neg hzero, bind_of_eq_some (minimumDecodedLength_eq huffman length),
      bind_of_eq_some (passesOver_eq decoder indexing hsize)]
    rfl

theorem valueLengthKnown_eq (hready : decoder.Ready) (indexing : Indexing) {name? : Option Octets}
    (hname : ∀ name ∈ name?, name.IsShort) (huffman : Bool) {length : Nat}
    (hlength : length ≤ StringLiteral.longestPayload) :
    valueLengthKnown decoder indexing name? huffman length =
      some (decoder.valueLengthKnown indexing name? huffman length) := by
  unfold valueLengthKnown Decoder.valueLengthKnown
  cases name? with
  | none => rfl
  | some name =>
    have hminimum := Nat.le_trans (minimumDecodedLength_le_length huffman length) hlength
    have hsize := add_overhead_le (hname name rfl) hminimum
    have hleast := Nat.le_trans (Nat.le_add_right _ _) hsize
    have hempty : Field.size ⟨name, []⟩ ≤ Size.largest := by
      unfold Field.size Field.length
      dsimp only [List.length_nil]
      omega
    dsimp only
    rw [bind_of_eq_some (minimumDecodedLength_eq huffman length),
      bind_of_eq_some (sum_of_le hleast), bind_of_eq_some (passesOver_eq decoder indexing hsize)]
    rcases hdecided : decoder.passesOver indexing
      (name.length + StringLiteral.minimumDecodedLength huffman length) with ⟨passes, decided⟩
    have hdecidedReady := hready.decided (.of_eq hdecided)
    cases passes with
    | true => rfl
    | false =>
      dsimp only
      rw [if_neg Bool.false_ne_true, if_neg Bool.false_ne_true]
      by_cases hzero : length = 0
      · rw [if_pos hzero, if_pos hzero, bind_of_eq_some (deliverLiteral_eq hdecidedReady _ hempty)]
        rfl
      · rw [if_neg hzero, if_neg hzero]
        rfl

end HeaderCompression.Checked.Rules
