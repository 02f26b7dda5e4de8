import HeaderCompression.Proofs.Decoder.Validity

/-!
# What a step can do

A step that goes on makes one of a few moves: it enters another stage, carries out a size update,
decides about a string whose length it has learnt, or completes a representation. The moves are
listed once, each with what is known when it is made, so that whatever they keep is kept by every
step. A step that waits changes nothing but how much is still to be passed over.
-/

namespace HeaderCompression

open Octets Table Wire

/-! ## Lengths -/

/-- The longest payload that a length can announce. -/
def Wire.StringLiteral.longestPayload : Nat :=
  Bits.ones lengthWidth + (PrefixedInteger.continuationValues - 1)

theorem Wire.PrefixedInteger.lt_of_lowBits? {width value : Nat} {octet : UInt8}
    (hlow : lowBits? width octet = some value) : value < Bits.ones width := by
  unfold lowBits? at hlow
  dsimp only at hlow
  split at hlow
  · rename_i hlt
    rwa [Option.some.inj hlow] at hlt
  · cases hlow

theorem LengthPart.le_longestPayload {part : LengthPart} {octets rest : Octets} {huffman : Bool}
    {length : Nat} (hread : part.read octets = .complete (.known huffman length) rest) :
    length ≤ StringLiteral.longestPayload := by
  unfold StringLiteral.longestPayload
  cases part with
  | opening =>
    obtain ⟨octet, -, hoctet⟩ := Reading.map_eq_complete_iff.1 hread
    unfold LengthReading.ofOctet at hoctet
    dsimp only at hoctet
    split at hoctet
    · rename_i low hlow
      obtain ⟨-, rfl⟩ := LengthReading.known.inj hoctet
      have hlt := PrefixedInteger.lt_of_lowBits? hlow
      omega
    · cases hoctet
  | continuation flag =>
    obtain ⟨value, hvalue, hknown⟩ := Reading.map_eq_complete_iff.1 hread
    obtain ⟨-, rfl⟩ := LengthReading.known.inj hknown
    have hlt := PrefixedInteger.readContinuation_lt hvalue
    omega

namespace Decoder

variable {decoder next : Decoder} {header? : Option Header} {completed : Decoder × Option Header}
  {unread rest : Octets}

/-! ## Moves -/

/-- The decoder after a decision whether to pass over a literal, or without one. -/
inductive Decided (decoder : Decoder) : Decoder → Prop
  | undecided : Decided decoder decoder
  | decision (indexing : Indexing) (length : Nat) :
    Decided decoder (decoder.passesOver indexing length).2

theorem Decided.of_eq {indexing : Indexing} {length : Nat} {passes : Bool} {decided : Decoder}
    (hdecided : decoder.passesOver indexing length = (passes, decided)) :
    decoder.Decided decided := by
  have hsecond : (decoder.passesOver indexing length).2 = decided := congrArg Prod.snd hdecided
  rw [← hsecond]
  exact .decision indexing length

theorem Valid.decided (hvalid : decoder.Valid) {decided : Decoder}
    (hdecided : decoder.Decided decided) : decided.Valid := by
  cases hdecided with
  | undecided => exact hvalid
  | decision indexing length => exact hvalid.passesOver indexing length

/-- What a step that goes on may do, and the header that it delivers. -/
inductive Move (decoder : Decoder) : Decoder × Option Header → Prop
  | index (opening : Opening) : Move decoder ({ decoder with stage := .index opening }, none)
  | indexed {index : Nat} {field : Field}
    (hfield : IndexSpace.resolve decoder.table index = .ok field) :
    Move decoder (decoder.deliver { field })
  | resized {capacity : Nat} (hcapacity : capacity ≤ decoder.tableSizeLimit) :
    Move decoder
      ({ decoder with table := decoder.table.setCapacity capacity, stage := .boundary }, none)
  | nameLength (indexing : Indexing) (part : LengthPart) :
    Move decoder ({ decoder with stage := .nameLength indexing part }, none)
  | nameIndexed (indexing : Indexing) {index : Nat} {field : Field}
    (hfield : IndexSpace.resolve decoder.table index = .ok field) :
    Move decoder ({ decoder with stage := .valueLength indexing (some field.name) .opening }, none)
  | nameKept {indexing : Indexing} {huffman : Bool} {length : Nat} {decided : Decoder}
    (hkept : decoder.passesOver indexing (StringLiteral.minimumDecodedLength huffman length) =
      (false, decided))
    (hpos : 0 < length) (hlongest : length ≤ StringLiteral.longestPayload) :
    Move decoder ({ decided with stage := .name indexing huffman length }, none)
  | nameSkipped {indexing : Indexing} {huffman : Bool} {length : Nat} {decided : Decoder}
    (hskipped : decoder.passesOver indexing (StringLiteral.minimumDecodedLength huffman length) =
      (true, decided))
    (hpos : 0 < length) (hlongest : length ≤ StringLiteral.longestPayload) :
    Move decoder ({ decided with stage := .skippedName indexing length }, none)
  | nameRead {indexing : Indexing} {huffman : Bool} {length : Nat} {octets name rest : Octets}
    (hstage : decoder.stage = .name indexing huffman length)
    (hread : StringLiteral.readPayload huffman length octets = .complete name rest)
    (hname : name ≠ []) :
    Move decoder ({ decoder with stage := .valueLength indexing (some name) .opening }, none)
  | nameDropped (indexing : Indexing) :
    Move decoder ({ decoder with stage := .valueLength indexing none .opening }, none)
  | valueLength {indexing : Indexing} {name? : Option Octets} {part : LengthPart}
    (hstage : decoder.stage = .valueLength indexing name? part) (next : LengthPart) :
    Move decoder ({ decoder with stage := .valueLength indexing name? next }, none)
  | valueKept {indexing : Indexing} {name : Octets} {part : LengthPart} {huffman : Bool}
    {length : Nat} {decided : Decoder}
    (hstage : decoder.stage = .valueLength indexing (some name) part)
    (hkept : decoder.passesOver indexing
      (name.length + StringLiteral.minimumDecodedLength huffman length) = (false, decided))
    (hpos : 0 < length) (hlongest : length ≤ StringLiteral.longestPayload) :
    Move decoder ({ decided with stage := .value indexing name huffman length }, none)
  | valueEmpty {indexing : Indexing} {name : Octets} {part : LengthPart} {decided : Decoder}
    (hstage : decoder.stage = .valueLength indexing (some name) part)
    (hdecided : decoder.Decided decided) :
    Move decoder (decided.deliverLiteral indexing ⟨name, []⟩)
  | valueRead {indexing : Indexing} {name : Octets} {huffman : Bool} {length : Nat}
    (hstage : decoder.stage = .value indexing name huffman length) (value : Octets) :
    Move decoder (decoder.deliverLiteral indexing ⟨name, value⟩)
  | valueSkipped {length : Nat} {decided : Decoder} (hdecided : decoder.Decided decided)
    (hpos : 0 < length) (hlongest : length ≤ StringLiteral.longestPayload) :
    Move decoder ({ decided with stage := .skippedValue length }, none)
  | valueDropped {decided : Decoder} (hdecided : decoder.Decided decided) :
    Move decoder ({ decided with stage := .boundary }, none)

/-! ## One rule for each element -/

theorem move_of_enter {stage : Stage} (hmove : decoder.Move ({ decoder with stage }, none))
    (henter : decoder.enter stage = .ok completed) : decoder.Move completed := by
  rwa [← Except.ok.inj henter]

theorem move_of_indexKnown {opening : Opening} {value : Nat}
    (hknown : decoder.indexKnown opening value = .ok completed) : decoder.Move completed := by
  unfold indexKnown at hknown
  cases opening with
  | indexed =>
    cases hresolve : IndexSpace.resolve decoder.table value with
    | error error =>
      rw [hresolve] at hknown
      cases hknown
    | ok field =>
      rw [hresolve] at hknown
      obtain rfl := Except.ok.inj hknown
      exact .indexed hresolve
  | literal indexing =>
    dsimp only at hknown
    split at hknown
    · exact move_of_enter (.nameLength indexing .opening) hknown
    · cases hresolve : IndexSpace.resolve decoder.table value with
      | error error =>
        rw [hresolve] at hknown
        cases hknown
      | ok field =>
        rw [hresolve] at hknown
        exact move_of_enter (.nameIndexed indexing hresolve) hknown
  | sizeUpdate =>
    unfold resize at hknown
    by_cases hcapacity : decoder.tableSizeLimit < value
    · rw [if_pos hcapacity] at hknown
      cases hknown
    · rw [if_neg hcapacity] at hknown
      obtain rfl := Except.ok.inj hknown
      exact .resized (Nat.le_of_not_lt hcapacity)

theorem move_of_openingKnown {octet : UInt8}
    (hknown : decoder.openingKnown octet = .ok completed) : decoder.Move completed := by
  unfold openingKnown at hknown
  dsimp only at hknown
  split at hknown
  · exact move_of_indexKnown hknown
  · exact move_of_enter (.index _) hknown

theorem move_of_nameLengthKnown {indexing : Indexing} {huffman : Bool} {length : Nat}
    (hlongest : length ≤ StringLiteral.longestPayload)
    (hknown : decoder.nameLengthKnown indexing huffman length = .ok completed) :
    decoder.Move completed := by
  unfold nameLengthKnown at hknown
  split at hknown
  · cases hknown
  · rename_i hlength
    have hpos := Nat.pos_of_ne_zero hlength
    rcases hdecided : decoder.passesOver indexing
      (StringLiteral.minimumDecodedLength huffman length) with ⟨passes, decided⟩
    rw [hdecided] at hknown
    cases passes with
    | false =>
      obtain rfl := Except.ok.inj hknown
      exact .nameKept hdecided hpos hlongest
    | true =>
      obtain rfl := Except.ok.inj hknown
      exact .nameSkipped hdecided hpos hlongest

theorem move_of_nameKnown {indexing : Indexing} {huffman : Bool} {length : Nat}
    {octets name rest : Octets} (hstage : decoder.stage = .name indexing huffman length)
    (hread : StringLiteral.readPayload huffman length octets = .complete name rest)
    (hknown : decoder.nameKnown indexing name = .ok completed) : decoder.Move completed := by
  unfold nameKnown at hknown
  split at hknown
  · cases hknown
  · rename_i hname
    exact move_of_enter (.nameRead hstage hread hname) hknown

theorem move_of_skipValue {decided : Decoder} {length : Nat} (hdecided : decoder.Decided decided)
    (hlongest : length ≤ StringLiteral.longestPayload)
    (hskip : decided.skipValue length = .ok completed) : decoder.Move completed := by
  unfold skipValue at hskip
  split at hskip
  · obtain rfl := Except.ok.inj hskip
    exact .valueDropped hdecided
  · rename_i hlength
    obtain rfl := Except.ok.inj hskip
    exact .valueSkipped hdecided (Nat.pos_of_ne_zero hlength) hlongest

theorem move_of_valueLengthKnown {indexing : Indexing} {name? : Option Octets} {part : LengthPart}
    {huffman : Bool} {length : Nat} (hstage : decoder.stage = .valueLength indexing name? part)
    (hlongest : length ≤ StringLiteral.longestPayload)
    (hknown : decoder.valueLengthKnown indexing name? huffman length = .ok completed) :
    decoder.Move completed := by
  unfold valueLengthKnown at hknown
  cases name? with
  | none => exact move_of_skipValue .undecided hlongest hknown
  | some name =>
    rcases hdecided : decoder.passesOver indexing
      (name.length + StringLiteral.minimumDecodedLength huffman length) with ⟨passes, decided⟩
    dsimp only at hknown
    rw [hdecided] at hknown
    cases passes with
    | true => exact move_of_skipValue (.of_eq hdecided) hlongest hknown
    | false =>
      rw [if_neg Bool.false_ne_true] at hknown
      split at hknown
      · obtain rfl := Except.ok.inj hknown
        exact .valueEmpty hstage (.of_eq hdecided)
      · rename_i hlength
        obtain rfl := Except.ok.inj hknown
        exact .valueKept hstage hdecided (Nat.pos_of_ne_zero hlength) hlongest

/-! ## Steps -/

/-- Every step that goes on makes a move. -/
theorem move_of_step (hstep : decoder.step unread = .advanced next header? rest) :
    decoder.Move (next, header?) := by
  unfold step at hstep
  cases hstage : decoder.stage with
  | boundary =>
    rw [hstage] at hstep
    obtain ⟨octet, -, hknown⟩ := exists_of_stepWith_advanced hstep
    exact move_of_openingKnown hknown
  | index opening =>
    rw [hstage] at hstep
    obtain ⟨value, -, hknown⟩ := exists_of_stepWith_advanced hstep
    exact move_of_indexKnown hknown
  | nameLength indexing part =>
    rw [hstage] at hstep
    obtain ⟨reading, hread, hknown⟩ := exists_of_stepWith_advanced hstep
    cases reading with
    | toBeContinued huffman => exact move_of_enter (.nameLength indexing _) hknown
    | known huffman length =>
      exact move_of_nameLengthKnown (LengthPart.le_longestPayload hread) hknown
  | name indexing huffman length =>
    rw [hstage] at hstep
    obtain ⟨name, hread, hknown⟩ := exists_of_stepWith_advanced hstep
    exact move_of_nameKnown hstage hread hknown
  | skippedName indexing remaining =>
    rw [hstage] at hstep
    unfold stepSkipping at hstep
    dsimp only at hstep
    split at hstep
    · cases hstep
    · obtain ⟨rfl, rfl, -⟩ := Step.advanced.inj hstep
      exact .nameDropped indexing
  | valueLength indexing name? part =>
    rw [hstage] at hstep
    obtain ⟨reading, hread, hknown⟩ := exists_of_stepWith_advanced hstep
    cases reading with
    | toBeContinued huffman => exact move_of_enter (.valueLength hstage _) hknown
    | known huffman length =>
      exact move_of_valueLengthKnown hstage (LengthPart.le_longestPayload hread) hknown
  | value indexing name huffman length =>
    rw [hstage] at hstep
    obtain ⟨value, -, hknown⟩ := exists_of_stepWith_advanced hstep
    rw [← Except.ok.inj hknown]
    exact .valueRead hstage value
  | skippedValue remaining =>
    rw [hstage] at hstep
    unfold stepSkipping at hstep
    dsimp only at hstep
    split at hstep
    · cases hstep
    · obtain ⟨rfl, rfl, -⟩ := Step.advanced.inj hstep
      exact .valueDropped .undecided

/-- A step that waits changes at most how much is still to be passed over. -/
inductive Waits (decoder : Decoder) : Decoder → Prop
  | unchanged : Waits decoder decoder
  | skippedName {indexing : Indexing} {remaining fewer : Nat}
    (hstage : decoder.stage = .skippedName indexing remaining) (hpos : 0 < fewer)
    (hfewer : fewer ≤ remaining) :
    Waits decoder { decoder with stage := .skippedName indexing fewer }
  | skippedValue {remaining fewer : Nat} (hstage : decoder.stage = .skippedValue remaining)
    (hpos : 0 < fewer) (hfewer : fewer ≤ remaining) :
    Waits decoder { decoder with stage := .skippedValue fewer }

theorem incomplete_of_stepWith_waiting {α : Type} {reader : Octets → Reading α}
    {consequence : α → Transition}
    (hstep : decoder.stepWith unread reader consequence = .waiting next rest) :
    reader unread = .incomplete ∧ next = decoder ∧ rest = unread := by
  unfold stepWith at hstep
  split at hstep
  · split at hstep <;> cases hstep
  · rename_i hread
    obtain ⟨rfl, rfl⟩ := Step.waiting.inj hstep
    exact ⟨hread, rfl, rfl⟩
  · cases hstep

theorem waiting_of_stepSkipping {remaining : Nat} {more : Nat → Stage} {done : Stage}
    (hstep : decoder.stepSkipping unread remaining more done = .waiting next rest) :
    unread.length < remaining ∧
      next = { decoder with stage := more (remaining - unread.length) } ∧ rest = [] := by
  unfold stepSkipping at hstep
  split at hstep
  · rename_i hlength
    obtain ⟨rfl, rfl⟩ := Step.waiting.inj hstep
    exact ⟨hlength, rfl, rfl⟩
  · cases hstep

theorem waits_of_step (hstep : decoder.step unread = .waiting next rest) :
    decoder.Waits next := by
  unfold step at hstep
  cases hstage : decoder.stage with
  | skippedName indexing remaining =>
    rw [hstage] at hstep
    obtain ⟨hlength, rfl, -⟩ := waiting_of_stepSkipping hstep
    exact .skippedName hstage (Nat.sub_pos_of_lt hlength) (Nat.sub_le _ _)
  | skippedValue remaining =>
    rw [hstage] at hstep
    obtain ⟨hlength, rfl, -⟩ := waiting_of_stepSkipping hstep
    exact .skippedValue hstage (Nat.sub_pos_of_lt hlength) (Nat.sub_le _ _)
  | _ =>
    rw [hstage] at hstep
    rw [(incomplete_of_stepWith_waiting hstep).2.1]
    exact .unchanged

/-! ## Limits -/

/-- Both limits are what they were. -/
structure SameLimits (decoder next : Decoder) : Prop where
  budget : next.budget.limit = decoder.budget.limit
  tableSize : next.tableSizeLimit = decoder.tableSizeLimit

theorem sameLimits_deliver (decoder : Decoder) (header : Header) :
    decoder.SameLimits (decoder.deliver header).1 := by
  unfold deliver
  split
  · exact ⟨rfl, rfl⟩
  · exact ⟨rfl, rfl⟩

theorem sameLimits_deliverLiteral (decoder : Decoder) (indexing : Indexing) (field : Field) :
    decoder.SameLimits (decoder.deliverLiteral indexing field).1 := by
  have hdelivered := sameLimits_deliver decoder { field, sensitive := indexing = .never }
  unfold deliverLiteral
  cases indexing with
  | incremental => exact ⟨hdelivered.budget, hdelivered.tableSize⟩
  | without => exact hdelivered
  | never => exact hdelivered

theorem Decided.sameLimits {decided : Decoder} (hdecided : decoder.Decided decided) :
    decoder.SameLimits decided := by
  cases hdecided with
  | undecided => exact ⟨rfl, rfl⟩
  | decision indexing length =>
    unfold passesOver
    split
    · exact ⟨rfl, rfl⟩
    · cases indexing with
      | without => exact ⟨rfl, rfl⟩
      | never => exact ⟨rfl, rfl⟩
      | incremental =>
        dsimp only
        split
        · exact ⟨rfl, rfl⟩
        · exact ⟨rfl, rfl⟩

/-- Nothing on the wire changes a limit. -/
theorem Move.sameLimits (hmove : decoder.Move completed) : decoder.SameLimits completed.1 := by
  cases hmove with
  | indexed hfield => exact sameLimits_deliver decoder _
  | valueRead hstage value => exact sameLimits_deliverLiteral decoder _ _
  | nameKept hkept hpos hlongest =>
    have hdecided := (Decided.of_eq hkept).sameLimits
    exact ⟨hdecided.budget, hdecided.tableSize⟩
  | nameSkipped hskipped hpos hlongest =>
    have hdecided := (Decided.of_eq hskipped).sameLimits
    exact ⟨hdecided.budget, hdecided.tableSize⟩
  | valueKept hstage hkept hpos hlongest =>
    have hdecided := (Decided.of_eq hkept).sameLimits
    exact ⟨hdecided.budget, hdecided.tableSize⟩
  | @valueEmpty indexing name part decided hstage hdecided =>
    have hdelivered := sameLimits_deliverLiteral decided indexing ⟨name, []⟩
    exact ⟨hdelivered.budget.trans hdecided.sameLimits.budget,
      hdelivered.tableSize.trans hdecided.sameLimits.tableSize⟩
  | valueSkipped hdecided hpos hlongest =>
    exact ⟨hdecided.sameLimits.budget, hdecided.sameLimits.tableSize⟩
  | valueDropped hdecided =>
    exact ⟨hdecided.sameLimits.budget, hdecided.sameLimits.tableSize⟩
  | _ => exact ⟨rfl, rfl⟩

/-! ## Runs -/

/-- What every move and every wait keeps is kept by a run, however many steps it takes. -/
theorem run_induction {motive : Decoder → Prop}
    (move : ∀ decoder completed, decoder.Valid → motive decoder → decoder.Move completed →
      motive completed.1)
    (wait : ∀ decoder next, motive decoder → decoder.Waits next → motive next)
    (hvalid : decoder.Valid) (hdecoder : motive decoder) (steps : Nat) (unread : Octets) :
    motive (decoder.run steps unread).decoder := by
  fun_induction Decoder.run steps decoder unread with
  | case1 decoder unread => exact hdecoder
  | case2 steps decoder => exact hdecoder
  | case3 steps decoder unread hne next header? rest hstep hrest =>
    have hmove := move decoder (next, header?) hvalid hdecoder (move_of_step hstep)
    exact hrest (hvalid.step_advanced hstep) hmove
  | case4 steps decoder unread hne next rest hstep =>
    exact wait decoder next hdecoder (waits_of_step hstep)
  | case5 steps decoder unread hne error rest hstep => exact hdecoder

end Decoder

end HeaderCompression
