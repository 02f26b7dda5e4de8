import HeaderCompression.Proofs.Block.TableInvariant
import HeaderCompression.Proofs.Decoder.Registers
import HeaderCompression.Proofs.Table.Likeness

/-!
# What registers show

A decoder with registers does what a decoder does whose stages carry all that is known. In every
state only those registers matter that have been written in the representation being read: the
others may hold anything, and so may the registers that a step has overwritten before it failed.
-/

namespace HeaderCompression

open Octets Table Wire

namespace RegisterDecoder

/-! ## What the registers show -/

/-- The registers hold what the stage carries, whatever the others hold. -/
def Holds (registers : RegisterDecoder) : Stage → Prop
  | .boundary => registers.state = .boundary
  | .index .indexed =>
    registers.state = .index ∧ registers.index = Bits.ones Opening.indexed.width
  | .index .sizeUpdate =>
    registers.state = .capacity ∧ registers.index = Bits.ones Opening.sizeUpdate.width
  | .index (.literal indexing) =>
    registers.state = .nameIndex ∧ registers.indexing = indexing ∧
      registers.index = Bits.ones (Opening.literal indexing).width
  | .nameLength indexing .opening =>
    registers.state = .nameLengthOpening ∧ registers.indexing = indexing
  | .nameLength indexing (.continuation huffman) =>
    registers.state = .nameLength ∧ registers.indexing = indexing ∧
      registers.huffman = huffman ∧ registers.index = Bits.ones StringLiteral.lengthWidth
  | .name indexing huffman length =>
    registers.state = .name ∧ registers.indexing = indexing ∧ registers.huffman = huffman ∧
      registers.nameLength = length
  | .skippedName indexing remaining =>
    registers.state = .skippedName ∧ registers.indexing = indexing ∧ registers.name = [] ∧
      registers.skipLength = remaining
  | .valueLength indexing name? .opening =>
    registers.state = .valueLengthOpening ∧ registers.indexing = indexing ∧
      registers.name = name?.getD []
  | .valueLength indexing name? (.continuation huffman) =>
    registers.state = .valueLength ∧ registers.indexing = indexing ∧
      registers.name = name?.getD [] ∧ registers.huffman = huffman ∧
      registers.index = Bits.ones StringLiteral.lengthWidth
  | .value indexing name huffman length =>
    registers.state = .value ∧ registers.indexing = indexing ∧ registers.name = name ∧
      registers.huffman = huffman ∧ registers.valueLength = length
  | .skippedValue remaining =>
    registers.state = .skippedValue ∧ registers.skipLength = remaining

/-- Table, budget and limit are those of a decoder with stages. -/
structure Carries (registers : RegisterDecoder) (decoder : Decoder) : Prop where
  table : registers.table.Alike decoder.table
  budget_eq : registers.budget = decoder.budget
  tableSizeLimit_eq : registers.tableSizeLimit = decoder.tableSizeLimit

structure Shows (registers : RegisterDecoder) (decoder : Decoder) : Prop
    extends registers.Carries decoder where
  stage : registers.Holds decoder.stage

variable {registers : RegisterDecoder} {decoder next : Decoder} {header? : Option Header}
  {indexing : Indexing} {unread rest : Octets}

/-- An element has the same consequences on both sides. If it is refused, the registers that were
overwritten are not among those that matter. -/
inductive Mirrors (decoder : Decoder) : Reaction → Decoder.Transition → Prop
  | ok {registers : RegisterDecoder} {next : Decoder} {header? : Option Header}
    (hnext : registers.Shows next) :
    Mirrors decoder (.ok header?, registers) (.ok (next, header?))
  | error {registers : RegisterDecoder} {error : DecodingError}
    (hdecoder : registers.Shows decoder) :
    Mirrors decoder (.error error, registers) (.error error)

/-! ## One rule for each element -/

theorem account_eq (hcarries : registers.Carries decoder) (header : Header) :
    (registers.account header).1 = (decoder.deliver header).2 ∧
      ∃ budget,
        registers.account header = ((registers.account header).1, { registers with budget }) ∧
        (decoder.deliver header).1 = { decoder with budget, stage := .boundary } := by
  unfold account Decoder.deliver
  rw [hcarries.budget_eq]
  split
  · exact ⟨rfl, _, rfl, rfl⟩
  · exact ⟨rfl, _, rfl, rfl⟩

theorem indexedHeader_mirrors (hshows : registers.Shows decoder) (index : Nat) :
    Mirrors decoder (registers.indexedHeader index) (decoder.indexKnown .indexed index) := by
  rw [indexedHeader, Decoder.indexKnown, hshows.table.resolve_eq]
  cases IndexSpace.resolve decoder.table index with
  | error error => exact .error hshows
  | ok field =>
    obtain ⟨hheader, budget, haccount, hdeliver⟩ := account_eq hshows.toCarries { field }
    show Mirrors decoder _ (.ok (decoder.deliver { field }))
    dsimp only
    rw [haccount, hheader]
    have hnext : ({ registers with budget, state := .boundary } : RegisterDecoder).Shows
        (decoder.deliver { field }).1 := by
      rw [hdeliver]
      exact { hshows with budget_eq := rfl, stage := rfl }
    exact .ok hnext

theorem resize_shows (hshows : registers.Shows decoder) (capacity : Nat) :
    (∃ error, registers.resize capacity = .error error ∧ decoder.resize capacity = .error error) ∨
      ∃ resized next, registers.resize capacity = .ok resized ∧
        decoder.resize capacity = .ok next ∧ resized.Shows next := by
  unfold resize Decoder.resize
  rw [hshows.tableSizeLimit_eq]
  by_cases hcapacity : decoder.tableSizeLimit < capacity
  · rw [if_pos hcapacity, if_pos hcapacity]
    exact .inl ⟨_, rfl, rfl⟩
  · rw [if_neg hcapacity, if_neg hcapacity]
    exact .inr ⟨_, _, rfl, rfl,
      { hshows with table := hshows.table.setCapacity capacity, tableSizeLimit_eq := rfl }⟩

theorem sizeUpdate_mirrors (hshows : registers.Shows decoder) (capacity : Nat) :
    Mirrors decoder (registers.sizeUpdate capacity) (decoder.indexKnown .sizeUpdate capacity) := by
  unfold sizeUpdate Decoder.indexKnown
  rcases resize_shows hshows capacity with
    ⟨error, hregisters, hdecoder⟩ | ⟨resized, next, hregisters, hdecoder, hnext⟩
  · rw [hregisters, hdecoder]
    exact .error hshows
  · rw [hregisters, hdecoder]
    exact .ok { hnext with stage := rfl }

theorem indexedName_mirrors (hshows : registers.Shows decoder)
    (hindexing : registers.indexing = indexing) {index : Nat} (hindex : index ≠ 0) :
    Mirrors decoder (registers.indexedName index)
      (decoder.indexKnown (.literal indexing) index) := by
  rw [indexedName, Decoder.indexKnown, hshows.table.resolve_eq, if_neg hindex]
  cases IndexSpace.resolve decoder.table index with
  | error error => exact .error hshows
  | ok field =>
    exact .ok { hshows with stage := ⟨rfl, hindexing, rfl⟩ }

theorem indexedIndex_mirrors (hshows : registers.Shows decoder) :
    Mirrors decoder
      (if registers.index = 0 then (.error (.illegalIndex 0), registers)
        else if registers.index = 0x7f then (.ok none, { registers with state := .index })
        else registers.indexedHeader registers.index)
      (if registers.index = 0x7f then decoder.enter (.index .indexed)
        else decoder.indexKnown .indexed registers.index) := by
  by_cases hzero : registers.index = 0
  · rw [if_pos hzero, hzero, if_neg (by decide)]
    exact .error hshows
  rw [if_neg hzero]
  by_cases hsaturated : registers.index = 0x7f
  · rw [if_pos hsaturated, if_pos hsaturated]
    exact .ok { hshows with stage := ⟨rfl, hsaturated⟩ }
  · rw [if_neg hsaturated, if_neg hsaturated]
    exact indexedHeader_mirrors hshows registers.index

theorem sizeUpdateIndex_mirrors (hshows : registers.Shows decoder) :
    Mirrors decoder
      (if registers.index = 0x1f then (.ok none, { registers with state := .capacity })
        else registers.sizeUpdate registers.index)
      (if registers.index = 0x1f then decoder.enter (.index .sizeUpdate)
        else decoder.indexKnown .sizeUpdate registers.index) := by
  by_cases hsaturated : registers.index = 0x1f
  · rw [if_pos hsaturated, if_pos hsaturated]
    exact .ok { hshows with stage := ⟨rfl, hsaturated⟩ }
  · rw [if_neg hsaturated, if_neg hsaturated]
    exact sizeUpdate_mirrors hshows registers.index

theorem literalNameIndex_mirrors (hshows : registers.Shows decoder)
    (hindexing : registers.indexing = indexing) {ones : Nat}
    (hones : ones = Bits.ones (Opening.literal indexing).width) :
    Mirrors decoder (registers.literalNameIndex ones)
      (if registers.index = ones then decoder.enter (.index (.literal indexing))
        else decoder.indexKnown (.literal indexing) registers.index) := by
  have hpos : ones ≠ 0 := by
    rw [hones]
    cases indexing <;> decide
  unfold literalNameIndex
  by_cases hzero : registers.index = 0
  · have hbelow : ¬registers.index = ones := by
      rw [hzero]
      exact hpos.symm
    rw [if_pos hzero, if_neg hbelow, Decoder.indexKnown, if_pos hzero]
    exact .ok { hshows with stage := ⟨rfl, hindexing⟩ }
  · rw [if_neg hzero]
    by_cases hsaturated : registers.index = ones
    · rw [if_pos hsaturated, if_pos hsaturated]
      exact .ok { hshows with stage := ⟨rfl, hindexing, hsaturated.trans hones⟩ }
    · rw [if_neg hsaturated, if_neg hsaturated]
      exact indexedName_mirrors hshows hindexing hzero

/-- The low bits of an octet, unless they are all ones. -/
def maskedBits? (octet mask : UInt8) (ones : Nat) : Option Nat :=
  if (octet &&& mask).toNat = ones then none else some (octet &&& mask).toNat

/-- Telling openings apart by single bits or by size is the same. -/
theorem opening_eq (octet : UInt8) :
    (Opening.ofOctet octet, PrefixedInteger.lowBits? (Opening.ofOctet octet).width octet) =
      if octet &&& 0x80 ≠ 0 then (.indexed, maskedBits? octet 0x7f 0x7f)
      else if octet &&& 0x40 ≠ 0 then (.literal .incremental, maskedBits? octet 0x3f 0x3f)
      else if octet &&& 0x20 ≠ 0 then (.sizeUpdate, maskedBits? octet 0x1f 0x1f)
      else
        (.literal (if octet &&& 0x10 ≠ 0 then .never else .without),
          maskedBits? octet 0x0f 0x0f) := by
  refine Octets.forall_octet ?_ octet
  decide +kernel

theorem openingKnown_eq {octet mask : UInt8} {ones : Nat} {opening : Opening}
    (hopening : (Opening.ofOctet octet,
      PrefixedInteger.lowBits? (Opening.ofOctet octet).width octet) =
        (opening, maskedBits? octet mask ones)) :
    decoder.openingKnown octet =
      if (octet &&& mask).toNat = ones then decoder.enter (.index opening)
      else decoder.indexKnown opening (octet &&& mask).toNat := by
  obtain ⟨rfl, hlow⟩ := Prod.mk.inj hopening
  unfold Decoder.openingKnown
  dsimp only
  rw [hlow, maskedBits?]
  by_cases hones : (octet &&& mask).toNat = ones
  · rw [if_pos hones, if_pos hones]
  · rw [if_neg hones, if_neg hones]

theorem opening_mirrors (hshows : registers.Shows decoder)
    (hboundary : decoder.stage = .boundary) (octet : UInt8) :
    Mirrors decoder (registers.opening octet) (decoder.openingKnown octet) := by
  have hstate : registers.state = .boundary := by
    have hstage := hshows.stage
    rw [hboundary] at hstage
    exact hstage
  have hbegun (indexing : Indexing) (index : Nat) :
      Shows { registers with indexing, index } decoder := by
    refine { hshows with stage := ?_ }
    rw [hboundary]
    exact hstate
  have hopening := opening_eq octet
  unfold opening
  by_cases hindexed : octet &&& 0x80 ≠ 0
  · rw [if_pos hindexed] at hopening ⊢
    rw [openingKnown_eq hopening]
    exact indexedIndex_mirrors (hbegun registers.indexing _)
  rw [if_neg hindexed] at hopening ⊢
  by_cases hincremental : octet &&& 0x40 ≠ 0
  · rw [if_pos hincremental] at hopening ⊢
    rw [openingKnown_eq hopening]
    exact literalNameIndex_mirrors (hbegun .incremental _) rfl rfl
  rw [if_neg hincremental] at hopening ⊢
  by_cases hupdate : octet &&& 0x20 ≠ 0
  · rw [if_pos hupdate] at hopening ⊢
    rw [openingKnown_eq hopening]
    exact sizeUpdateIndex_mirrors (hbegun registers.indexing _)
  · rw [if_neg hupdate] at hopening ⊢
    rw [openingKnown_eq hopening]
    apply literalNameIndex_mirrors (hbegun _ _) rfl
    split <;> rfl

theorem lengthReading_eq (octet : UInt8) :
    LengthReading.ofOctet octet =
      if (octet &&& 0x7f).toNat = 0x7f then .toBeContinued (octet &&& 0x80 ≠ 0)
      else .known (octet &&& 0x80 ≠ 0) (octet &&& 0x7f).toNat := by
  refine Octets.forall_octet ?_ octet
  decide +kernel

theorem passesOver_eq (hcarries : registers.Carries decoder)
    (hindexing : registers.indexing = indexing) (length : Nat) :
    ∃ table other budget, table.Alike other ∧
      registers.passesOver length =
        ((decoder.passesOver indexing length).1, { registers with table, budget }) ∧
      (decoder.passesOver indexing length).2 = { decoder with table := other, budget } := by
  unfold passesOver mustIndex Decoder.passesOver
  rw [hcarries.budget_eq]
  by_cases hadmits : decoder.budget.admits length
  · rw [if_pos hadmits, if_pos hadmits]
    exact ⟨_, _, decoder.budget, hcarries.table, by rw [← hcarries.budget_eq], rfl⟩
  rw [if_neg hadmits, if_neg hadmits]
  dsimp only
  rw [hindexing, hcarries.table.capacity_eq]
  cases indexing with
  | without => exact ⟨_, _, _, hcarries.table, rfl, rfl⟩
  | never => exact ⟨_, _, _, hcarries.table, rfl, rfl⟩
  | incremental =>
    rw [if_neg (by decide)]
    dsimp only
    by_cases hcapacity : decoder.table.capacity < length + Field.overhead
    · rw [if_pos hcapacity, if_pos hcapacity]
      exact ⟨_, _, _, hcarries.table.clear, rfl, rfl⟩
    · rw [if_neg hcapacity, if_neg hcapacity]
      exact ⟨_, _, _, hcarries.table, rfl, rfl⟩

theorem nameLengthKnown_mirrors (hshows : registers.Shows decoder) {huffman : Bool} {length : Nat}
    (hindexing : registers.indexing = indexing) (hhuffman : registers.huffman = huffman)
    (hlength : registers.nameLength = length) :
    Mirrors decoder registers.nameLengthKnown
      (decoder.nameLengthKnown indexing huffman length) := by
  unfold nameLengthKnown Decoder.nameLengthKnown
  rw [hlength, hhuffman]
  by_cases hzero : length = 0
  · rw [if_pos hzero, if_pos hzero]
    exact .error hshows
  rw [if_neg hzero, if_neg hzero]
  obtain ⟨table, other, budget, htable, hregisters, hdecoder⟩ :=
    passesOver_eq hshows.toCarries hindexing (StringLiteral.minimumDecodedLength huffman length)
  dsimp only
  rw [hregisters, hdecoder]
  by_cases hpasses : (decoder.passesOver indexing
      (StringLiteral.minimumDecodedLength huffman length)).1 = true
  · rw [if_pos hpasses, if_pos hpasses]
    exact .ok ⟨⟨htable, rfl, hshows.tableSizeLimit_eq⟩, rfl, hindexing, rfl, rfl⟩
  · rw [if_neg hpasses, if_neg hpasses]
    exact .ok ⟨⟨htable, rfl, hshows.tableSizeLimit_eq⟩, rfl, hindexing, hhuffman, hlength⟩

theorem nameLengthOpening_mirrors (hshows : registers.Shows decoder)
    (hstage : decoder.stage = .nameLength indexing .opening) (octet : UInt8) :
    Mirrors decoder (registers.nameLengthOpening octet)
      (match LengthReading.ofOctet octet with
        | .toBeContinued huffman => decoder.enter (.nameLength indexing (.continuation huffman))
        | .known huffman length => decoder.nameLengthKnown indexing huffman length) := by
  have hholds := hshows.stage
  rw [hstage] at hholds
  obtain ⟨hstate, hindexing⟩ := hholds
  have hbegun (huffman : Bool) (index nameLength : Nat) :
      Shows { registers with huffman, index, nameLength } decoder := by
    refine { hshows with stage := ?_ }
    rw [hstage]
    exact ⟨hstate, hindexing⟩
  rw [lengthReading_eq]
  unfold nameLengthOpening
  dsimp only
  by_cases hsaturated : (octet &&& 0x7f).toNat = 0x7f
  · rw [if_pos hsaturated, if_pos hsaturated]
    exact .ok { hshows with stage := ⟨rfl, hindexing, rfl, hsaturated⟩ }
  · rw [if_neg hsaturated, if_neg hsaturated]
    exact nameLengthKnown_mirrors (hbegun _ _ _) hindexing rfl rfl

theorem nameKnown_mirrors (hshows : registers.Shows decoder)
    (hindexing : registers.indexing = indexing) (name : Octets) :
    Mirrors decoder (registers.nameKnown name) (decoder.nameKnown indexing name) := by
  unfold nameKnown Decoder.nameKnown
  by_cases hname : name = []
  · rw [if_pos hname, if_pos hname]
    exact .error hshows
  · rw [if_neg hname, if_neg hname]
    exact .ok { hshows with stage := ⟨rfl, hindexing, rfl⟩ }

theorem insertHeader_mirrors (hcarries : registers.Carries next)
    (hindexing : registers.indexing = indexing) (name value : Octets) :
    Mirrors decoder (registers.insertHeader name value)
      (.ok (next.deliverLiteral indexing ⟨name, value⟩)) := by
  obtain ⟨hheader, budget, haccount, hdeliver⟩ :=
    account_eq hcarries { field := ⟨name, value⟩, sensitive := indexing = .never }
  unfold insertHeader Decoder.deliverLiteral
  dsimp only
  rw [hindexing, haccount, hheader]
  generalize next.deliver { field := ⟨name, value⟩, sensitive := indexing = .never } = delivered
    at hdeliver ⊢
  obtain ⟨delivered, header?⟩ := delivered
  obtain rfl : delivered = { next with budget, stage := .boundary } := hdeliver
  cases indexing with
  | without =>
    rw [if_neg (by decide)]
    exact .ok { hcarries with budget_eq := rfl, stage := rfl }
  | never =>
    rw [if_neg (by decide)]
    exact .ok { hcarries with budget_eq := rfl, stage := rfl }
  | incremental =>
    rw [if_pos rfl]
    exact .ok
      { hcarries with table := hcarries.table.add ⟨name, value⟩, budget_eq := rfl, stage := rfl }

theorem skipValue_mirrors (hcarries : registers.Carries next) {length : Nat}
    (hlength : registers.valueLength = length) :
    Mirrors decoder
      (.ok none,
        { registers with
          skipLength := registers.valueLength
          state := if registers.valueLength = 0 then .boundary else .skippedValue })
      (next.skipValue length) := by
  unfold Decoder.skipValue
  rw [hlength]
  refine .ok { hcarries with stage := ?_ }
  by_cases hzero : length = 0
  · rw [if_pos hzero, if_pos hzero]
    exact rfl
  · rw [if_neg hzero, if_neg hzero]
    exact ⟨rfl, rfl⟩

/-- No name in the register means that the name was passed over, as no name is empty. -/
theorem valueLengthKnown_mirrors (hcarries : registers.Carries decoder) {name? : Option Octets}
    {huffman : Bool} {length : Nat} (hindexing : registers.indexing = indexing)
    (hname : registers.name = name?.getD []) (hnamed : ∀ name, name? = some name → name ≠ [])
    (hhuffman : registers.huffman = huffman) (hlength : registers.valueLength = length) :
    Mirrors decoder registers.valueLengthKnown
      (decoder.valueLengthKnown indexing name? huffman length) := by
  unfold valueLengthKnown Decoder.valueLengthKnown
  cases name? with
  | none =>
    have hskipped : registers.name = [] := hname
    rw [if_pos hskipped]
    exact skipValue_mirrors hcarries hlength
  | some name =>
    obtain rfl : registers.name = name := hname
    rw [if_neg (hnamed registers.name rfl), hhuffman, hlength]
    obtain ⟨table, other, budget, htable, hregisters, hdecoder⟩ := passesOver_eq hcarries hindexing
      (registers.name.length + StringLiteral.minimumDecodedLength huffman length)
    have hdecided : Carries { registers with table, budget }
        { decoder with table := other, budget } := ⟨htable, rfl, hcarries.tableSizeLimit_eq⟩
    dsimp only
    rw [hregisters, hdecoder]
    by_cases hpasses : (decoder.passesOver indexing
        (registers.name.length + StringLiteral.minimumDecodedLength huffman length)).1 = true
    · rw [if_pos hpasses, if_pos hpasses, ← hlength]
      exact skipValue_mirrors hdecided rfl
    rw [if_neg hpasses, if_neg hpasses]
    by_cases hzero : length = 0
    · rw [if_pos hzero, if_pos hzero]
      have htaken : Carries { registers with table, budget, name := [] }
          { decoder with table := other, budget } := ⟨htable, rfl, hcarries.tableSizeLimit_eq⟩
      exact insertHeader_mirrors htaken hindexing registers.name []
    · rw [if_neg hzero, if_neg hzero]
      exact .ok ⟨⟨htable, rfl, hcarries.tableSizeLimit_eq⟩, rfl, hindexing, rfl, hhuffman, hlength⟩

theorem valueLengthOpening_mirrors (hcarries : registers.Carries decoder) {name? : Option Octets}
    (hindexing : registers.indexing = indexing) (hname : registers.name = name?.getD [])
    (hnamed : ∀ name, name? = some name → name ≠ []) (octet : UInt8) :
    Mirrors decoder (registers.valueLengthOpening octet)
      (match LengthReading.ofOctet octet with
        | .toBeContinued huffman =>
          decoder.enter (.valueLength indexing name? (.continuation huffman))
        | .known huffman length => decoder.valueLengthKnown indexing name? huffman length) := by
  have hbegun (huffman : Bool) (index valueLength : Nat) :
      Carries { registers with huffman, index, valueLength } decoder :=
    { hcarries with }
  rw [lengthReading_eq]
  unfold valueLengthOpening
  dsimp only
  by_cases hsaturated : (octet &&& 0x7f).toNat = 0x7f
  · rw [if_pos hsaturated, if_pos hsaturated]
    exact .ok { hcarries with stage := ⟨rfl, hindexing, hname, rfl, hsaturated⟩ }
  · rw [if_neg hsaturated, if_neg hsaturated]
    exact valueLengthKnown_mirrors (hbegun _ _ _) hindexing hname hnamed rfl rfl

theorem valueKnown_mirrors (hcarries : registers.Carries decoder) {name : Octets}
    (hindexing : registers.indexing = indexing) (hname : registers.name = name) (value : Octets) :
    Mirrors decoder (registers.valueKnown value)
      (.ok (decoder.deliverLiteral indexing ⟨name, value⟩)) := by
  unfold valueKnown
  rw [hname]
  have htaken : Carries { registers with name := [] } decoder :=
    { hcarries with }
  exact insertHeader_mirrors htaken hindexing name value

/-! ## Steps -/

/-- A step ends in the same way on both sides. A step that fails leaves the decoder with stages as
it was. -/
inductive Step.Mirrors (decoder : Decoder) : Step → Decoder.Step → Prop
  | advanced {registers : RegisterDecoder} {next : Decoder} {header? : Option Header}
    {rest : Octets} (hnext : registers.Shows next) :
    Mirrors decoder (.advanced registers header? rest) (.advanced next header? rest)
  | waiting {registers : RegisterDecoder} {next : Decoder} {rest : Octets}
    (hnext : registers.Shows next) :
    Mirrors decoder (.waiting registers rest) (.waiting next rest)
  | failed {registers : RegisterDecoder} {error : DecodingError} {rest : Octets}
    (hdecoder : registers.Shows decoder) :
    Mirrors decoder (.failed registers error rest) (.failed error rest)

theorem stepWith_mirrors {α : Type} (hshows : registers.Shows decoder)
    (reader : Octets → Reading α) {react : α → Reaction} {consequence : α → Decoder.Transition}
    (hreact : ∀ element, Mirrors decoder (react element) (consequence element)) :
    Step.Mirrors decoder (registers.stepWith unread reader react)
      (decoder.stepWith unread reader consequence) := by
  unfold stepWith Decoder.stepWith
  cases reader unread with
  | complete element rest =>
    have hmirrors := hreact element
    dsimp only
    generalize react element = reaction at hmirrors ⊢
    generalize consequence element = transition at hmirrors ⊢
    cases hmirrors with
    | ok hnext => exact .advanced hnext
    | error hdecoder => exact .failed hdecoder
  | incomplete => exact .waiting hshows
  | failed error rest => exact .failed hshows

theorem stepWith_mirrors_map {α β : Type} (hshows : registers.Shows decoder)
    {reader : Octets → Reading α} {f : α → β} {react : α → Reaction}
    {consequence : β → Decoder.Transition}
    (hreact : ∀ element, Mirrors decoder (react element) (consequence (f element))) :
    Step.Mirrors decoder (registers.stepWith unread reader react)
      (decoder.stepWith unread (fun octets ↦ (reader octets).map f) consequence) := by
  have hmap : decoder.stepWith unread (fun octets ↦ (reader octets).map f) consequence =
      decoder.stepWith unread reader (fun element ↦ consequence (f element)) := by
    unfold Decoder.stepWith
    dsimp only
    cases reader unread <;> rfl
  rw [hmap]
  exact stepWith_mirrors hshows reader hreact

theorem stepSkipping_mirrors (hcarries : registers.Carries decoder) {remaining : Nat}
    {more : Nat → Stage} {done : Stage} {state : RegisterState}
    (hremaining : registers.skipLength = remaining)
    (hmore : ∀ skipLength, Holds { registers with skipLength } (more skipLength))
    (hdone : ∀ skipLength, Holds { registers with skipLength, state } done) :
    Step.Mirrors decoder (registers.stepSkipping unread state)
      (decoder.stepSkipping unread remaining more done) := by
  unfold stepSkipping Decoder.stepSkipping
  dsimp only
  rw [hremaining]
  by_cases hlength : unread.length < remaining
  · have hskipped : min remaining unread.length = unread.length :=
      Nat.min_eq_right (Nat.le_of_lt hlength)
    rw [hskipped, if_pos (Nat.sub_pos_of_lt hlength), if_pos hlength, List.drop_length]
    exact .waiting { hcarries with stage := hmore _ }
  · have hskipped : min remaining unread.length = remaining :=
      Nat.min_eq_left (Nat.le_of_not_lt hlength)
    rw [hskipped, Nat.sub_self, if_neg (Nat.lt_irrefl 0), if_neg hlength]
    exact .advanced { hcarries with stage := hdone _ }

theorem step_mirrors (hshows : registers.Shows decoder) (hnamed : decoder.stage.IsNamed)
    (unread : Octets) : Step.Mirrors decoder (registers.step unread) (decoder.step unread) := by
  have hstage := hshows.stage
  unfold step Decoder.step
  -- The stage says which registers matter, and `hstage` that they hold what the stage carries.
  cases hcase : decoder.stage with
  | boundary =>
    rw [hcase] at hstage
    have hstate : registers.state = .boundary := hstage
    rw [hstate]
    exact stepWith_mirrors hshows first fun octet ↦ opening_mirrors hshows hcase octet
  | index opening =>
    rw [hcase] at hstage
    cases opening with
    | indexed =>
      obtain ⟨hstate, hindex⟩ := hstage
      rw [hstate, hindex]
      exact stepWith_mirrors hshows _ fun rest ↦ indexedHeader_mirrors hshows _
    | sizeUpdate =>
      obtain ⟨hstate, hindex⟩ := hstage
      rw [hstate, hindex]
      exact stepWith_mirrors hshows _ fun rest ↦ sizeUpdate_mirrors hshows _
    | literal indexing =>
      obtain ⟨hstate, hindexing, hindex⟩ := hstage
      rw [hstate, hindex]
      refine stepWith_mirrors hshows _ fun rest ↦ indexedName_mirrors hshows hindexing ?_
      cases indexing <;> exact Nat.ne_of_gt (Nat.add_pos_left (by decide) rest)
  | nameLength indexing part =>
    rw [hcase] at hstage
    cases part with
    | opening =>
      obtain ⟨hstate, hindexing⟩ := hstage
      rw [hstate]
      exact stepWith_mirrors_map hshows fun octet ↦ nameLengthOpening_mirrors hshows hcase octet
    | continuation huffman =>
      obtain ⟨hstate, hindexing, hhuffman, hindex⟩ := hstage
      rw [hstate, hindex]
      refine stepWith_mirrors_map hshows fun rest ↦ ?_
      have hbegun (index nameLength : Nat) (hindex : index = Bits.ones StringLiteral.lengthWidth) :
          Shows { registers with state := .nameLength, index, nameLength } decoder := by
        refine { hshows with stage := ?_ }
        rw [hcase]
        exact ⟨rfl, hindexing, hhuffman, hindex⟩
      exact nameLengthKnown_mirrors (hbegun _ (_ + rest) rfl) hindexing hhuffman rfl
  | name indexing huffman length =>
    rw [hcase] at hstage
    obtain ⟨hstate, hindexing, hhuffman, hlength⟩ := hstage
    rw [hstate, hhuffman, hlength]
    exact stepWith_mirrors hshows _ fun name ↦ nameKnown_mirrors hshows hindexing name
  | skippedName indexing remaining =>
    rw [hcase] at hstage
    obtain ⟨hstate, hindexing, hname, hremaining⟩ := hstage
    rw [hstate]
    exact stepSkipping_mirrors hshows.toCarries hremaining
      (fun _ ↦ ⟨hstate, hindexing, hname, rfl⟩) (fun _ ↦ ⟨rfl, hindexing, hname⟩)
  | valueLength indexing name? part =>
    rw [hcase] at hstage
    have hname? (name : Octets) (hname : name? = some name) : name ≠ [] := by
      rw [hcase, hname] at hnamed
      exact hnamed
    cases part with
    | opening =>
      obtain ⟨hstate, hindexing, hname⟩ := hstage
      rw [hstate]
      exact stepWith_mirrors_map hshows fun octet ↦
        valueLengthOpening_mirrors hshows.toCarries hindexing hname hname? octet
    | continuation huffman =>
      obtain ⟨hstate, hindexing, hname, hhuffman, hindex⟩ := hstage
      rw [hstate, hindex]
      refine stepWith_mirrors_map hshows fun rest ↦ ?_
      have hbegun (index valueLength : Nat) :
          Carries { registers with state := .valueLength, index, valueLength } decoder :=
        { hshows.toCarries with }
      exact valueLengthKnown_mirrors (hbegun _ (_ + rest)) hindexing hname hname? hhuffman rfl
  | value indexing name huffman length =>
    rw [hcase] at hstage
    obtain ⟨hstate, hindexing, hname, hhuffman, hlength⟩ := hstage
    rw [hstate, hhuffman, hlength]
    exact stepWith_mirrors hshows _ fun value ↦
      valueKnown_mirrors hshows.toCarries hindexing hname value
  | skippedValue remaining =>
    rw [hcase] at hstage
    obtain ⟨hstate, hremaining⟩ := hstage
    rw [hstate]
    exact stepSkipping_mirrors hshows.toCarries hremaining (fun _ ↦ ⟨hstate, rfl⟩) (fun _ ↦ rfl)

/-! ## Runs -/

/-- Both decoders have come to the same, and go on from there alike. -/
structure Outcome.Shows (outcome : Outcome) (other : Decoder.Outcome) : Prop where
  decoder : outcome.registers.Shows other.decoder
  headers_eq : outcome.headers = other.headers
  rest_eq : outcome.rest = other.rest
  error?_eq : outcome.error? = other.error?

theorem Outcome.Shows.after {outcome : Outcome} {other : Decoder.Outcome}
    (hshows : outcome.Shows other) (header? : Option Header) :
    (outcome.after header?).Shows (other.after header?) :=
  { hshows with headers_eq := congrArg (header?.toList ++ ·) hshows.headers_eq }

theorem run_shows (hshows : registers.Shows decoder) (hvalid : decoder.Valid)
    (hkept : decoder.TableKept) (steps : Nat) (unread : Octets) :
    (registers.run steps unread).Shows (decoder.run steps unread) := by
  -- An empty register stands for a name that was passed over. `hkept` goes along in the induction,
  -- so that no name that is kept is empty.
  induction steps generalizing registers decoder unread with
  | zero => exact ⟨hshows, rfl, rfl, rfl⟩
  | succ steps hsteps =>
    cases unread with
    | nil => exact ⟨hshows, rfl, rfl, rfl⟩
    | cons octet unread =>
      have hmirrors := step_mirrors hshows hkept.stage (octet :: unread)
      unfold run Decoder.run
      generalize registers.step (octet :: unread) = step at hmirrors ⊢
      cases hstep : decoder.step (octet :: unread) with
      | advanced next header? rest =>
        rw [hstep] at hmirrors
        cases hmirrors with
        | advanced hnext =>
          have hrest := hsteps hnext (hvalid.step_advanced hstep)
            (hkept.move hvalid (Decoder.move_of_step hstep)) rest
          exact hrest.after header?
      | waiting next rest =>
        rw [hstep] at hmirrors
        cases hmirrors with
        | waiting hnext => exact ⟨hnext, rfl, rfl, rfl⟩
      | failed error rest =>
        rw [hstep] at hmirrors
        cases hmirrors with
        | failed hdecoder => exact ⟨hdecoder, rfl, rfl, rfl⟩

theorem decode_shows (hshows : registers.Shows decoder) (hvalid : decoder.Valid)
    (hkept : decoder.TableKept) (queue : Queue) :
    (registers.decode queue).1.Shows (decoder.decode queue).1 ∧
      (registers.decode queue).2 = (decoder.decode queue).2 := by
  have hrun := run_shows hshows hvalid hkept queue.unread.length queue.unread
  refine ⟨hrun, ?_⟩
  unfold decode Decoder.decode
  dsimp only
  rw [hrun.rest_eq]

/-! ## Adjustments -/

theorem endBlock_shows (hcarries : registers.Carries decoder) :
    registers.endBlock.1 = decoder.endBlock.1 ∧
      registers.endBlock.2.Shows decoder.endBlock.2 :=
  ⟨congrArg Budget.isExceeded hcarries.budget_eq,
    ⟨hcarries.table, congrArg Budget.reset hcarries.budget_eq, hcarries.tableSizeLimit_eq⟩, rfl⟩

theorem setTableSizeLimit_shows (hshows : registers.Shows decoder) (limit : Nat) :
    (registers.setTableSizeLimit limit).Shows (decoder.setTableSizeLimit limit) := by
  unfold setTableSizeLimit Decoder.setTableSizeLimit
  rw [hshows.table.capacity_eq]
  by_cases hlimit : limit < decoder.table.capacity
  · rw [if_pos hlimit, if_pos hlimit]
    exact { hshows with table := hshows.table.setCapacity limit, tableSizeLimit_eq := rfl }
  · rw [if_neg hlimit, if_neg hlimit]
    exact { hshows with tableSizeLimit_eq := rfl }

theorem setPolicy_shows (hshows : registers.Shows decoder) (policy : EvictionPolicy) :
    (registers.setPolicy policy).Shows (decoder.setPolicy policy) :=
  { hshows with table := hshows.table.setPolicy policy }

theorem Holds.state_eq_boundary_iff {stage : Stage} (hstage : registers.Holds stage) :
    registers.state = .boundary ↔ stage = .boundary := by
  unfold Holds at hstage
  split at hstage
  · exact iff_of_true hstage rfl
  all_goals
    rw [hstage.1]
    exact iff_of_false nofun nofun

theorem isPartial_eq (hshows : registers.Shows decoder) :
    registers.isPartial = decoder.isPartial :=
  decide_eq_decide.2 (not_congr hshows.stage.state_eq_boundary_iff)

end RegisterDecoder

end HeaderCompression
