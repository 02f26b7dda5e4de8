import HeaderCompression.Proofs.Decoder.ListDecoder
import HeaderCompression.Proofs.Decoder.Runs

/-!
# Conformance to the grammar

A decoder with an unlimited budget does what a list decoder does. In every stage it has read the
beginning of a representation, and what it will do with the octets that follow is what the list
decoder has still to read of that representation. Each step keeps that up, so a whole run does.
-/

namespace HeaderCompression

open Octets Table Wire

/-! ## First octets -/

namespace Wire

/-- Telling openings apart by size or by bits is the same. -/
theorem Opening.ofBits_ofNat (octet : UInt8) :
    ofBits (Bits.ofNat 8 octet.toNat) = (ofOctet octet, (ofOctet octet).width) := by
  refine Octets.forall_octet ?_ octet
  decide +kernel

theorem StringLiteral.testBit_eq_huffmanFlag (octet : UInt8) :
    octet.toNat.testBit 7 = decide (huffmanFlag ≤ octet) := by
  refine Octets.forall_octet ?_ octet
  decide +kernel

end Wire

/-! ## What is still to be read -/

/-- The rest of the flag and the length of a string literal. -/
def LengthPart.readRest : LengthPart → Octets → Reading (Bool × Nat)
  | opening, octets => StringLiteral.readLength octets
  | continuation huffman, octets =>
    (PrefixedInteger.readContinuation octets).map fun rest ↦ (huffman, Bits.ones 7 + rest)

/-- What a part of a length leaves to be read. -/
def LengthReading.readRest : LengthReading → Octets → Reading (Bool × Nat)
  | toBeContinued huffman, octets => (LengthPart.continuation huffman).readRest octets
  | known huffman length, octets => .complete (huffman, length) octets

theorem LengthPart.readRest_eq (part : LengthPart) (octets : Octets) :
    part.readRest octets = (part.read octets).andThen LengthReading.readRest := by
  cases part with
  | continuation huffman =>
    rw [readRest, read]
    cases PrefixedInteger.readContinuation octets <;> rfl
  | opening =>
    cases octets with
    | nil => rfl
    | cons octet rest =>
      rw [readRest, StringLiteral.readLength, StringLiteral.testBit_eq_huffmanFlag, read, first,
        Reading.map_complete, Reading.andThen_complete, PrefixedInteger.read, LengthReading.ofOctet]
      cases hlow : PrefixedInteger.lowBits? 7 octet with
      | some length => simp [StringLiteral.lengthWidth, hlow, LengthReading.readRest]
      | none =>
        simp only [StringLiteral.lengthWidth, hlow, LengthReading.readRest, LengthPart.readRest]
        cases PrefixedInteger.readContinuation rest <;> rfl

namespace ListDecoder

/-- A name spelled out, once its flag and length are known. -/
def readNameText (huffman : Bool) (length : Nat) (octets : Octets) : Reading Octets :=
  (StringLiteral.readPayload huffman length octets).andThen fun name ↦
    .ofExcept (if name = [] then .error .emptyName else .ok name)

def readValueText (decoder : ListDecoder) (indexing : Indexing) (name : Octets) (huffman : Bool)
    (length : Nat) (octets : Octets) : Reading (ListDecoder × Option Header) :=
  (StringLiteral.readPayload huffman length octets).map (decoder.complete indexing name)

/-- What is still to be read of a representation. Nothing is passed over. -/
def readRest (decoder : ListDecoder) : Stage → Octets → Reading (ListDecoder × Option Header)
  | .boundary, octets => decoder.read octets
  | .index opening, octets =>
    (PrefixedInteger.readContinuation octets).andThen fun rest ↦
      decoder.readAfter opening (Bits.ones opening.width + rest)
  | .nameLength indexing part, octets =>
    (part.readRest octets).andThen fun flagged rest ↦
      (readNameText flagged.1 flagged.2 rest).andThen (decoder.readValue indexing)
  | .name indexing huffman length, octets =>
    (readNameText huffman length octets).andThen (decoder.readValue indexing)
  | .valueLength indexing (some name) part, octets =>
    (part.readRest octets).andThen fun flagged ↦
      decoder.readValueText indexing name flagged.1 flagged.2
  | .value indexing name huffman length, octets =>
    decoder.readValueText indexing name huffman length octets
  | .valueLength _ none _, _ => .incomplete
  | .skippedName _ _, _ => .incomplete
  | .skippedValue _, _ => .incomplete

theorem readValue_eq_readRest (decoder : ListDecoder) (indexing : Indexing) (name octets : Octets) :
    decoder.readValue indexing name octets =
      decoder.readRest (.valueLength indexing (some name) .opening) octets := by
  rw [readValue, StringLiteral.read, readRest, LengthPart.readRest]
  cases StringLiteral.readLength octets <;> rfl

/-- Index zero is followed by a name. -/
theorem readAfter_zero_eq_readRest (decoder : ListDecoder) (indexing : Indexing) (octets : Octets) :
    decoder.readAfter (.literal indexing) 0 octets =
      decoder.readRest (.nameLength indexing .opening) octets := by
  rw [readAfter, LiteralName.readAfter, if_pos rfl, StringLiteral.read, readRest,
    LengthPart.readRest]
  cases StringLiteral.readLength octets with
  | incomplete => rfl
  | failed error rest => rfl
  | complete flagged rest =>
    rw [Reading.andThen_complete, Reading.andThen_complete, readNameText]
    cases StringLiteral.readPayload flagged.1 flagged.2 rest <;> rfl

/-- Any other index stands for the name. -/
theorem readAfter_index_eq (decoder : ListDecoder) (indexing : Indexing) {index : Nat}
    (hindex : index ≠ 0) (octets : Octets) :
    decoder.readAfter (.literal indexing) index octets =
      (Reading.ofExcept ((decoder.table.resolve index).map Field.name) octets).andThen
        (decoder.readValue indexing) := by
  rw [readAfter, LiteralName.readAfter, if_neg hindex, Reading.andThen_complete, nameOf]

end ListDecoder

/-- Everything read so far is kept. -/
def Stage.KeepsAll : Stage → Prop
  | .skippedName _ _ => False
  | .valueLength _ none _ => False
  | .skippedValue _ => False
  | _ => True

namespace Decoder

variable {decoder next : Decoder} {header? : Option Header} {unread rest : Octets}

/-- The decoder as a list decoder. -/
def listDecoder (decoder : Decoder) : ListDecoder :=
  ⟨decoder.table.listing, decoder.tableSizeLimit⟩

/-- No budget makes the decoder pass over anything. -/
structure IsUnlimited (decoder : Decoder) : Prop where
  limit : Size.largest ≤ decoder.budget.limit
  keepsAll : decoder.stage.KeepsAll

/-! ## Agreement of one step -/

/-- The decoder has come to a state from which the reading goes on. -/
structure Continues (decoder next : Decoder) (header? : Option Header) (rest : Octets)
    (reading : Reading (ListDecoder × Option Header)) : Prop where
  isUnlimited : next.IsUnlimited
  complete (hboundary : next.stage = .boundary) :
    reading = .complete (next.listDecoder, header?) rest
  incomplete (hboundary : next.stage ≠ .boundary) :
    header? = none ∧ next.listDecoder = decoder.listDecoder ∧
      reading = next.listDecoder.readRest next.stage rest

/-- The consequences of an element are those that the reading draws. -/
def Transition.Matches (decoder : Decoder) (transition : Transition) (rest : Octets)
    (reading : Reading (ListDecoder × Option Header)) : Prop :=
  match transition with
  | .ok (next, header?) => decoder.Continues next header? rest reading
  | .error error => reading = .failed error rest

def Step.Matches (decoder : Decoder) (unread : Octets) (step : Step)
    (reading : Reading (ListDecoder × Option Header)) : Prop :=
  match step with
  | .advanced next header? rest => decoder.Continues next header? rest reading
  | .waiting next rest => next = decoder ∧ rest = unread ∧ reading = .incomplete
  | .failed error rest => reading = .failed error rest

theorem stepWith_matches {α : Type} {reader : Octets → Reading α} {consequence : α → Transition}
    {after : α → Octets → Reading (ListDecoder × Option Header)}
    (hconsequence : ∀ element rest,
      Transition.Matches decoder (consequence element) rest (after element rest)) :
    (decoder.stepWith unread reader consequence).Matches decoder unread
      ((reader unread).andThen after) := by
  unfold stepWith
  cases hread : reader unread with
  | incomplete => exact ⟨rfl, rfl, rfl⟩
  | failed error rest => rfl
  | complete element rest =>
    have helement := hconsequence element rest
    dsimp only [Reading.andThen_complete]
    cases htransition : consequence element with
    | error error =>
      rw [htransition] at helement
      exact helement
    | ok completed =>
      rw [htransition] at helement
      exact helement

theorem enter_matches (hlimit : Size.largest ≤ decoder.budget.limit) (stage : Stage)
    (hkeeps : stage.KeepsAll) (hstage : stage ≠ .boundary) (rest : Octets) :
    Transition.Matches decoder (decoder.enter stage) rest
      (decoder.listDecoder.readRest stage rest) where
  isUnlimited := ⟨hlimit, hkeeps⟩
  complete hboundary := absurd hboundary hstage
  incomplete _ := ⟨rfl, rfl, rfl⟩

/-! ## One rule for each element -/

theorem admits_of_largest_le {budget : Budget} (hlimit : Size.largest ≤ budget.limit)
    (length : Nat) : budget.admits length = true :=
  decide_eq_true (Nat.le_trans (Nat.min_le_right _ _) hlimit)

theorem deliver_eq (hlimit : Size.largest ≤ decoder.budget.limit) (header : Header) :
    decoder.deliver header =
      ({ decoder with budget := decoder.budget.spend header.field.length, stage := .boundary },
        some header) := by
  rw [deliver, if_pos (admits_of_largest_le hlimit _)]

theorem passesOver_eq (hlimit : Size.largest ≤ decoder.budget.limit) (indexing : Indexing)
    (length : Nat) : decoder.passesOver indexing length = (false, decoder) := by
  rw [passesOver, if_pos (admits_of_largest_le hlimit _)]

theorem deliverLiteral_matches (hvalid : decoder.Valid)
    (hlimit : Size.largest ≤ decoder.budget.limit) (indexing : Indexing)
    (name value rest : Octets) :
    Transition.Matches decoder (.ok (decoder.deliverLiteral indexing ⟨name, value⟩)) rest
      (.complete (decoder.listDecoder.complete indexing name value) rest) := by
  unfold deliverLiteral
  rw [deliver_eq hlimit]
  cases indexing with
  | incremental =>
    refine ⟨⟨hlimit, trivial⟩, fun _ ↦ ?_, fun hboundary ↦ absurd rfl hboundary⟩
    unfold ListDecoder.complete ListDecoder.insert listDecoder
    rw [← hvalid.table.listing_add]
  | without => exact ⟨⟨hlimit, trivial⟩, fun _ ↦ rfl, fun hboundary ↦ absurd rfl hboundary⟩
  | never => exact ⟨⟨hlimit, trivial⟩, fun _ ↦ rfl, fun hboundary ↦ absurd rfl hboundary⟩

theorem resize_matches (hvalid : decoder.Valid) (hlimit : Size.largest ≤ decoder.budget.limit)
    (capacity : Nat) (rest : Octets) :
    Transition.Matches decoder
      (decoder.resize capacity >>= fun resized ↦ resized.enter .boundary) rest
      (.ofExcept (decoder.listDecoder.apply (.sizeUpdate capacity)) rest) := by
  rw [ListDecoder.apply, ListDecoder.resize, resize]
  by_cases hcapacity : decoder.tableSizeLimit < capacity
  · rw [if_pos hcapacity, if_pos (by exact hcapacity)]
    rfl
  · rw [if_neg hcapacity, if_neg (by exact hcapacity)]
    refine ⟨⟨hlimit, trivial⟩, fun _ ↦ ?_, fun hboundary ↦ absurd rfl hboundary⟩
    unfold listDecoder
    rw [← hvalid.table.listing_setCapacity]
    rfl

theorem resolve_eq (hvalid : decoder.Valid) (index : Nat) :
    IndexSpace.resolve decoder.table index = decoder.listDecoder.table.resolve index :=
  IndexSpace.resolve_eq hvalid.table.refines index

theorem indexKnown_matches (hvalid : decoder.Valid) (hlimit : Size.largest ≤ decoder.budget.limit)
    (opening : Opening) (value : Nat) (rest : Octets) :
    Transition.Matches decoder (decoder.indexKnown opening value) rest
      (decoder.listDecoder.readAfter opening value rest) := by
  unfold indexKnown
  cases opening with
  | sizeUpdate => exact resize_matches hvalid hlimit value rest
  | indexed =>
    rw [resolve_eq hvalid, ListDecoder.readAfter, ListDecoder.apply]
    cases decoder.listDecoder.table.resolve value with
    | error error => rfl
    | ok field =>
      show Transition.Matches decoder (.ok (decoder.deliver { field })) rest _
      rw [deliver_eq hlimit]
      exact ⟨⟨hlimit, trivial⟩, fun _ ↦ rfl, fun hboundary ↦ absurd rfl hboundary⟩
  | literal indexing =>
    dsimp only
    by_cases hzero : value = 0
    · rw [if_pos hzero, hzero, ListDecoder.readAfter_zero_eq_readRest]
      exact enter_matches hlimit (.nameLength indexing .opening) trivial (by simp) rest
    · rw [if_neg hzero, resolve_eq hvalid, ListDecoder.readAfter_index_eq _ _ hzero]
      cases decoder.listDecoder.table.resolve value with
      | error error => rfl
      | ok field =>
        have hvalue := decoder.listDecoder.readValue_eq_readRest indexing field.name rest
        show Transition.Matches decoder (decoder.enter _) rest
          (decoder.listDecoder.readValue indexing field.name rest)
        rw [hvalue]
        exact enter_matches hlimit (.valueLength indexing (some field.name) .opening) trivial
          (by simp) rest

theorem openingKnown_matches (hvalid : decoder.Valid) (hlimit : Size.largest ≤ decoder.budget.limit)
    (octet : UInt8) (rest : Octets) :
    Transition.Matches decoder (decoder.openingKnown octet) rest
      (decoder.listDecoder.read (octet :: rest)) := by
  rw [ListDecoder.read, Opening.ofBits_ofNat, openingKnown]
  dsimp only
  rw [PrefixedInteger.read]
  cases PrefixedInteger.lowBits? (Opening.ofOctet octet).width octet with
  | some value => exact indexKnown_matches hvalid hlimit _ value rest
  | none =>
    have hcontinuation : ((PrefixedInteger.readContinuation rest).map
        (Bits.ones (Opening.ofOctet octet).width + ·)).andThen
          (decoder.listDecoder.readAfter (Opening.ofOctet octet)) =
        decoder.listDecoder.readRest (.index (Opening.ofOctet octet)) rest := by
      rw [ListDecoder.readRest]
      cases PrefixedInteger.readContinuation rest <;> rfl
    dsimp only
    rw [hcontinuation]
    exact enter_matches hlimit (.index (Opening.ofOctet octet)) trivial (by simp) rest

theorem nameKnown_matches (hlimit : Size.largest ≤ decoder.budget.limit) (indexing : Indexing)
    (name rest : Octets) :
    Transition.Matches decoder (decoder.nameKnown indexing name) rest
      ((Reading.ofExcept (if name = [] then .error .emptyName else .ok name) rest).andThen
        (decoder.listDecoder.readValue indexing)) := by
  unfold nameKnown
  by_cases hempty : name = []
  · rw [if_pos hempty, if_pos hempty]
    rfl
  · rw [if_neg hempty, if_neg hempty, Reading.ofExcept_ok, Reading.andThen_complete,
      ListDecoder.readValue_eq_readRest]
    exact enter_matches hlimit (.valueLength indexing (some name) .opening) trivial (by simp) rest

theorem nameLengthKnown_matches (hlimit : Size.largest ≤ decoder.budget.limit) (indexing : Indexing)
    (huffman : Bool) (length : Nat) (rest : Octets) :
    Transition.Matches decoder (decoder.nameLengthKnown indexing huffman length) rest
      ((ListDecoder.readNameText huffman length rest).andThen
        (decoder.listDecoder.readValue indexing)) := by
  unfold nameLengthKnown
  by_cases hzero : length = 0
  · have hempty : ListDecoder.readNameText huffman 0 rest = .failed .emptyName rest := by
      cases huffman <;> rfl
    rw [if_pos hzero, hzero, hempty]
    rfl
  · rw [if_neg hzero, passesOver_eq hlimit]
    exact enter_matches hlimit (.name indexing huffman length) trivial (by simp) rest

theorem valueLengthKnown_matches (hvalid : decoder.Valid)
    (hlimit : Size.largest ≤ decoder.budget.limit) (indexing : Indexing) (name : Octets)
    (huffman : Bool) (length : Nat) (rest : Octets) :
    Transition.Matches decoder (decoder.valueLengthKnown indexing (some name) huffman length) rest
      (decoder.listDecoder.readValueText indexing name huffman length rest) := by
  unfold valueLengthKnown
  dsimp only
  rw [passesOver_eq hlimit]
  by_cases hzero : length = 0
  · have hempty : StringLiteral.readPayload huffman 0 rest = .complete [] rest := by
      cases huffman <;> rfl
    simp only [Bool.false_eq_true, if_false, hzero, if_true, ListDecoder.readValueText, hempty]
    exact deliverLiteral_matches hvalid hlimit indexing name [] rest
  · simp only [Bool.false_eq_true, if_false, hzero]
    exact enter_matches hlimit (.value indexing name huffman length) trivial (by simp) rest

/-! ## Steps -/

/-- The step does what the list decoder has still to read. -/
theorem step_matches (hvalid : decoder.Valid) (hunlimited : decoder.IsUnlimited) (unread : Octets) :
    (decoder.step unread).Matches decoder unread
      (decoder.listDecoder.readRest decoder.stage unread) := by
  have hlimit := hunlimited.limit
  have hkeeps := hunlimited.keepsAll
  unfold step
  cases hstage : decoder.stage with
  | boundary =>
    have hread : decoder.listDecoder.readRest .boundary unread =
        (first unread).andThen fun octet rest ↦ decoder.listDecoder.read (octet :: rest) := by
      cases unread <;> rfl
    rw [hread]
    exact stepWith_matches (openingKnown_matches hvalid hlimit)
  | index opening =>
    exact stepWith_matches fun rest ↦ indexKnown_matches hvalid hlimit opening _
  | nameLength indexing part =>
    rw [ListDecoder.readRest, LengthPart.readRest_eq, Reading.andThen_andThen]
    refine stepWith_matches fun reading rest ↦ ?_
    cases reading with
    | toBeContinued huffman =>
      exact enter_matches hlimit (.nameLength indexing (.continuation huffman)) trivial
        (by simp) rest
    | known huffman length => exact nameLengthKnown_matches hlimit indexing huffman length rest
  | name indexing huffman length =>
    rw [ListDecoder.readRest, ListDecoder.readNameText, Reading.andThen_andThen]
    exact stepWith_matches (nameKnown_matches hlimit indexing)
  | skippedName indexing remaining =>
    rw [hstage] at hkeeps
    exact hkeeps.elim
  | valueLength indexing name? part =>
    rw [hstage] at hkeeps
    cases name? with
    | none => exact hkeeps.elim
    | some name =>
      rw [ListDecoder.readRest, LengthPart.readRest_eq, Reading.andThen_andThen]
      refine stepWith_matches fun reading rest ↦ ?_
      cases reading with
      | toBeContinued huffman =>
        exact enter_matches hlimit (.valueLength indexing (some name) (.continuation huffman))
          trivial (by simp) rest
      | known huffman length =>
        exact valueLengthKnown_matches hvalid hlimit indexing name huffman length rest
  | value indexing name huffman length =>
    rw [ListDecoder.readRest, ListDecoder.readValueText, Reading.map_eq_andThen]
    exact stepWith_matches (deliverLiteral_matches hvalid hlimit indexing name)
  | skippedValue remaining =>
    rw [hstage] at hkeeps
    exact hkeeps.elim

/-! ## Runs -/

/-- A run has come to what the list decoder has come to. -/
structure Outcome.Conforms (outcome : Outcome) (reference : ListDecoder.Outcome) : Prop where
  headers_eq : outcome.headers = reference.headers
  listDecoder_eq : outcome.decoder.listDecoder = reference.decoder
  error_eq : outcome.error? = reference.error?
  isPartial_iff (herror : outcome.error? = none) :
    reference.isPartial = false ↔ outcome.rest = [] ∧ outcome.decoder.stage = .boundary

theorem Outcome.Conforms.after {outcome : Outcome} {reference : ListDecoder.Outcome}
    (hconforms : outcome.Conforms reference) (header? : Option Header) :
    (outcome.after header?).Conforms (reference.after header?) :=
  { hconforms with headers_eq := congrArg (header?.toList ++ ·) hconforms.headers_eq }

/-- What the list decoder makes of the rest of a representation and of what follows. -/
def decodeRest (decoder : Decoder) (unread : Octets) : ListDecoder.Outcome :=
  if decoder.stage = .boundary then decoder.listDecoder.decode unread
  else decoder.listDecoder.finish (decoder.listDecoder.readRest decoder.stage unread)

theorem decodeRest_of_ne_nil (hne : unread ≠ []) :
    decoder.decodeRest unread =
      decoder.listDecoder.finish (decoder.listDecoder.readRest decoder.stage unread) := by
  unfold decodeRest
  by_cases hboundary : decoder.stage = .boundary
  · rw [if_pos hboundary, hboundary, ListDecoder.decode_of_ne_nil hne, ListDecoder.readRest]
  · rw [if_neg hboundary]

theorem readRest_nil (hvalid : decoder.Valid) (hunlimited : decoder.IsUnlimited) :
    decoder.listDecoder.readRest decoder.stage [] = .incomplete := by
  have hmatches := step_matches hvalid hunlimited []
  cases hstep : decoder.step [] with
  | advanced next header? rest => exact absurd rfl (ne_nil_of_step_advanced hvalid hstep)
  | failed error rest => exact absurd rfl (ne_nil_of_step_failed hvalid hstep)
  | waiting next rest =>
    rw [hstep] at hmatches
    exact hmatches.2.2

/-- The list decoder goes on from where a step has led. -/
theorem Continues.decodeRest_eq {reading : Reading (ListDecoder × Option Header)}
    (hcontinues : decoder.Continues next header? rest reading) :
    decoder.listDecoder.finish reading = (next.decodeRest rest).after header? := by
  unfold decodeRest
  by_cases hboundary : next.stage = .boundary
  · rw [if_pos hboundary, hcontinues.complete hboundary, ListDecoder.finish]
  · obtain ⟨rfl, hdecoder, hreading⟩ := hcontinues.incomplete hboundary
    rw [if_neg hboundary, ← hdecoder, ← hreading]
    rfl

theorem consume_conforms (hvalid : decoder.Valid) (hunlimited : decoder.IsUnlimited)
    (unread : Octets) : (decoder.consume unread).Conforms (decoder.decodeRest unread) := by
  induction decoder, unread, hvalid using consume_induction with
  | nil decoder hvalid =>
    rw [consume_nil, decodeRest]
    by_cases hboundary : decoder.stage = .boundary
    · rw [if_pos hboundary, ListDecoder.decode_nil]
      exact ⟨rfl, rfl, rfl, fun _ ↦ iff_of_true rfl ⟨rfl, hboundary⟩⟩
    · rw [if_neg hboundary, readRest_nil hvalid hunlimited]
      exact ⟨rfl, rfl, rfl, fun _ ↦
        iff_of_false Bool.true_eq_false.mp fun hboth ↦ hboundary hboth.2⟩
  | advanced decoder unread next header? rest hvalid hstep hrest =>
    have hmatches := step_matches hvalid hunlimited unread
    rw [hstep] at hmatches
    rw [consume_advanced hvalid hstep,
      decodeRest_of_ne_nil (ne_nil_of_step_advanced hvalid hstep), Continues.decodeRest_eq hmatches]
    exact (hrest hmatches.isUnlimited).after header?
  | waiting decoder unread next rest hvalid hne hstep =>
    have hmatches := step_matches hvalid hunlimited unread
    rw [hstep] at hmatches
    obtain ⟨rfl, rfl, hincomplete⟩ := hmatches
    rw [consume_waiting hvalid hne hstep, decodeRest_of_ne_nil hne, hincomplete]
    exact ⟨rfl, rfl, rfl, fun _ ↦ iff_of_false Bool.true_eq_false.mp fun hboth ↦ hne hboth.1⟩
  | failed decoder unread error rest hvalid hstep =>
    have hmatches : decoder.listDecoder.readRest decoder.stage unread = .failed error rest := by
      have hmatches := step_matches hvalid hunlimited unread
      rwa [hstep] at hmatches
    rw [consume_failed hvalid hstep, decodeRest_of_ne_nil (ne_nil_of_step_failed hvalid hstep),
      hmatches]
    exact ⟨rfl, rfl, rfl, fun hnone ↦ absurd hnone (Option.some_ne_none error)⟩

theorem consume_isUnlimited (hvalid : decoder.Valid) (hunlimited : decoder.IsUnlimited)
    (unread : Octets) : (decoder.consume unread).decoder.IsUnlimited := by
  induction decoder, unread, hvalid using consume_induction with
  | nil decoder hvalid => exact hunlimited
  | advanced decoder unread next header? rest hvalid hstep hrest =>
    have hmatches := step_matches hvalid hunlimited unread
    rw [hstep] at hmatches
    rw [consume_advanced hvalid hstep]
    exact hrest hmatches.isUnlimited
  | waiting decoder unread next rest hvalid hne hstep =>
    have hmatches := step_matches hvalid hunlimited unread
    rw [hstep] at hmatches
    rw [consume_waiting hvalid hne hstep]
    obtain ⟨rfl, -, -⟩ := hmatches
    exact hunlimited
  | failed decoder unread error rest hvalid hstep =>
    rw [consume_failed hvalid hstep]
    exact hunlimited

theorem isUnlimited_of_boundary (hboundary : decoder.stage = .boundary)
    (hlimit : Size.largest ≤ decoder.budget.limit) : decoder.IsUnlimited := by
  refine ⟨hlimit, ?_⟩
  rw [hboundary]
  exact trivial

/-- At a boundary, a decoder with an unlimited budget does what the list decoder does. -/
theorem consume_conforms_decode (hvalid : decoder.Valid) (hboundary : decoder.stage = .boundary)
    (hlimit : Size.largest ≤ decoder.budget.limit) (octets : Octets) :
    (decoder.consume octets).Conforms (decoder.listDecoder.decode octets) := by
  have hconforms := consume_conforms hvalid (isUnlimited_of_boundary hboundary hlimit) octets
  rwa [decodeRest, if_pos hboundary] at hconforms

end Decoder

/-! ## Readers -/

namespace Block.Reader

/-- A reader with an unlimited budget, between two blocks, does what the list decoder does, and the
octets that it accepts without being left inside a representation are those of the grammar. -/
theorem decode_conforms_to_grammar {reader : Reader} (hidle : reader.IsIdle)
    (hlimit : reader.decoder.budget.limit = Size.largest) (octets : Octets) :
    let outcome := (reader.decoder.decode (reader.input.append octets)).1
    let reference := reader.decoder.listDecoder.decode octets
    outcome.headers = reference.headers ∧ outcome.error? = reference.error? ∧
      outcome.decoder.table.toList = reference.decoder.table.entries ∧
      outcome.decoder.table.capacity = reference.decoder.table.capacity ∧
      ((reader.decode octets).1 = .ok reference.headers ↔ reference.error? = none) ∧
      (reference.error? = none →
        ((reader.decode octets).2.isPartial = false ↔ IsBlock octets)) := by
  have hvalid := hidle.reachable.valid
  have hmarked := hidle.isMarked
  have houtcome : reader.outcome octets = reader.decoder.consume octets := by
    rw [outcome, hidle.unread_eq_nil, List.nil_append]
  have hdecoded : (reader.decoder.decode (reader.input.append octets)).1 =
      reader.decoder.consume octets := by
    rw [Decoder.decode_fst, Queue.unread_append hmarked, hidle.unread_eq_nil, List.nil_append]
  have hconforms :=
    Decoder.consume_conforms_decode hvalid hidle.atBoundary (Nat.le_of_eq hlimit.symm) octets
  have htable := congrArg ListDecoder.table hconforms.listDecoder_eq
  dsimp only
  rw [hdecoded]
  refine ⟨hconforms.headers_eq, hconforms.error_eq, congrArg ListTable.entries htable,
    congrArg ListTable.capacity htable, ?_, fun herror ↦ ?_⟩
  · rw [← hconforms.headers_eq, ← hconforms.error_eq, ← houtcome]
    exact decode_eq_ok_iff hmarked octets
  · have hgrammar := ListDecoder.isPartial_decode_eq_false_iff herror
    rw [isPartial_eq_false_iff, ← hgrammar,
      hconforms.isPartial_iff (hconforms.error_eq.trans herror), unread_decode hvalid hmarked,
      decoder_decode hmarked, houtcome]

theorem decode_conforms_to_grammar_of_settings :
    let reader : Reader := .ofSettings { listSizeLimit := Size.largest }
    (reader.decoder.decode (reader.input.append [0x82, 0x40, 0x01])).1.headers =
      (reader.decoder.listDecoder.decode [0x82, 0x40, 0x01]).headers :=
  (decode_conforms_to_grammar (isIdle_ofSettings { listSizeLimit := Size.largest }) rfl
    [0x82, 0x40, 0x01]).1

end Block.Reader

end HeaderCompression
