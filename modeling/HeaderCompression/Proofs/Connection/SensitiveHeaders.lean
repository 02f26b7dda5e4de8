import HeaderCompression.Encoder
import HeaderCompression.Proofs.Decoder.Truncation
import Mathlib.Data.List.Forall2

/-!
# Sensitive values stay out of the tables

Two lists of headers that differ in sensitive values alone leave the encoder in the same state, and
what is written for them differs in the coded sensitive values alone. A decoder that reads a literal
of the kind that sensitive headers are sent as keeps its table and marks the header as sensitive,
whether the budget admits the literal or not and whether or not its strings can be decoded.
-/

namespace HeaderCompression

open Octets Table Wire

/-! ## Headers that differ in a secret -/

/-- The headers are the same, apart from the value of a sensitive one. -/
structure Header.SameButSecret (header other : Header) : Prop where
  name : other.field.name = header.field.name
  sensitive : other.sensitive = header.sensitive
  value : header.sensitive = false → other.field.value = header.field.value

theorem Header.SameButSecret.eq_of_not_sensitive {header other : Header}
    (hsame : header.SameButSecret other) (hpublic : header.sensitive = false) : other = header := by
  obtain ⟨⟨name, value⟩, sensitive⟩ := header
  obtain ⟨⟨otherName, otherValue⟩, otherSensitive⟩ := other
  obtain rfl : otherName = name := hsame.name
  obtain rfl : otherSensitive = sensitive := hsame.sensitive
  obtain rfl : otherValue = value := hsame.value hpublic
  rfl

namespace Encoder

variable {encoder : Encoder} {header other : Header} {headers others : List Header}

/-- How a literal gives a name. -/
def literalName (encoder : Encoder) (name : Octets) : LiteralName :=
  (IndexSpace.findName? encoder.table name).elim (.literal name) .indexed

/-- What comes before the value of a sensitive header. -/
def secretPrefix (encoder : Encoder) (name : Octets) : Octets :=
  (encoder.literalName name).encode encoder.huffman .never

/-- The octets of each header. -/
def segments (encoder : Encoder) : List Header → List Octets
  | [] => []
  | header :: headers =>
    (encoder.encodeHeader header).1 :: (encoder.encodeHeader header).2.segments headers

theorem flatten_segments (encoder : Encoder) (headers : List Header) :
    (encoder.segments headers).flatten = (encoder.encode headers).1 := by
  induction headers generalizing encoder with
  | nil => rfl
  | cons header headers hheaders =>
    rw [segments, List.flatten_cons, hheaders]
    rfl

theorem segments_getElem? (encoder : Encoder) (headers : List Header) (place : Nat) :
    (encoder.segments headers)[place]? =
      headers[place]?.map fun header ↦
        ((encoder.encode (headers.take place)).2.encodeHeader header).1 := by
  induction headers generalizing encoder place with
  | nil => rfl
  | cons header headers hheaders =>
    cases place with
    | zero => rfl
    | succ place =>
      rw [segments, List.getElem?_cons_succ, List.getElem?_cons_succ, hheaders]
      rfl

/-! ## One header -/

/-- The tables are asked for the name alone, and nothing enters them. -/
theorem encodeHeader_of_sensitive (hsensitive : header.sensitive = true) :
    encoder.encodeHeader header =
      (encoder.secretPrefix header.field.name ++
        StringLiteral.encode encoder.huffman header.field.value, encoder) := by
  have hrepresent : encoder.represent header =
      .literal .never (encoder.literalName header.field.name) header.field.value := by
    unfold represent
    exact if_pos hsensitive
  rw [encodeHeader, hrepresent]
  rfl

theorem encodeHeader_snd_of_sameButSecret (hsame : header.SameButSecret other) :
    (encoder.encodeHeader other).2 = (encoder.encodeHeader header).2 := by
  cases hsensitive : header.sensitive with
  | true =>
    rw [encodeHeader_of_sensitive hsensitive,
      encodeHeader_of_sensitive (hsame.sensitive.trans hsensitive)]
  | false => rw [hsame.eq_of_not_sensitive hsensitive]

/-- The first octet announces a literal that is never indexed. -/
theorem exists_secretPrefix_eq_cons (encoder : Encoder) (name : Octets) :
    ∃ octet rest, encoder.secretPrefix name = octet :: rest ∧
      Opening.ofOctet octet = .literal .never := by
  have hencode (index : Nat) : ∃ octet rest,
      PrefixedInteger.encode (Opening.literal .never).mask (Opening.literal .never).width index =
        octet :: rest ∧ Opening.ofOctet octet = .literal .never := by
    obtain ⟨low, rest, hlow, hencode⟩ := PrefixedInteger.exists_encode_eq_cons
      (Opening.literal .never).mask (Opening.literal .never).width index
    refine ⟨_, rest, hencode, ?_⟩
    have hbits := Opening.ofBits_mask (.literal .never) hlow
    rw [Opening.ofBits_ofNat] at hbits
    exact (Prod.mk.inj hbits).1
  unfold secretPrefix
  cases encoder.literalName name with
  | indexed index => exact hencode index
  | literal name =>
    obtain ⟨octet, rest, hzero, hopening⟩ := hencode 0
    exact ⟨octet, rest ++ StringLiteral.encode encoder.huffman name,
      by rw [LiteralName.encode, hzero, List.cons_append], hopening⟩

/-! ## Lists of headers -/

theorem encode_snd_of_sameButSecret (hsame : List.Forall₂ Header.SameButSecret headers others) :
    (encoder.encode others).2 = (encoder.encode headers).2 := by
  induction hsame generalizing encoder with
  | nil => rfl
  | cons hheader _ hheaders =>
    rw [encode, encode]
    dsimp only
    rw [encodeHeader_snd_of_sameButSecret hheader, hheaders]

theorem encode_snd_eq_filter (encoder : Encoder) (headers : List Header) :
    (encoder.encode headers).2 =
      (encoder.encode (headers.filter fun header ↦ !header.sensitive)).2 := by
  induction headers generalizing encoder with
  | nil => rfl
  | cons header headers hheaders =>
    cases hsensitive : header.sensitive with
    | true =>
      rw [List.filter_cons_of_neg (by simp [hsensitive]), ← hheaders, encode,
        encodeHeader_of_sensitive hsensitive]
    | false =>
      rw [List.filter_cons_of_pos (by simp [hsensitive]), encode, encode]
      exact hheaders _

/-- What is written at one place of two lists that differ in secrets. -/
theorem segments_of_sameButSecret (hsame : List.Forall₂ Header.SameButSecret headers others)
    {place : Nat} (hheader : headers[place]? = some header) (hother : others[place]? = some other) :
    let reached := (encoder.encode (headers.take place)).2
    (header.sensitive = false → (encoder.segments headers)[place]? =
        some (reached.encodeHeader header).1 ∧
      (encoder.segments others)[place]? = some (reached.encodeHeader header).1) ∧
    (header.sensitive = true →
      (encoder.segments headers)[place]? = some (reached.secretPrefix header.field.name ++
        StringLiteral.encode reached.huffman header.field.value) ∧
      (encoder.segments others)[place]? = some (reached.secretPrefix header.field.name ++
        StringLiteral.encode reached.huffman other.field.value)) := by
  have hreached : (encoder.encode (others.take place)).2 =
      (encoder.encode (headers.take place)).2 :=
    encode_snd_of_sameButSecret (List.forall₂_take place hsame)
  obtain ⟨hplace, rfl⟩ := List.getElem?_eq_some_iff.1 hheader
  obtain ⟨hotherPlace, rfl⟩ := List.getElem?_eq_some_iff.1 hother
  have hboth : Header.SameButSecret headers[place] others[place] := hsame.get hplace hotherPlace
  dsimp only
  rw [segments_getElem?, segments_getElem?, hheader, hother, hreached, Option.map_some,
    Option.map_some]
  constructor
  · intro hpublic
    rw [hboth.eq_of_not_sensitive hpublic]
    exact ⟨rfl, rfl⟩
  · intro hsensitive
    rw [encodeHeader_of_sensitive hsensitive,
      encodeHeader_of_sensitive (hboth.sensitive.trans hsensitive), hboth.name]
    exact ⟨rfl, rfl⟩

end Encoder

/-! ## Literals that are never indexed -/

namespace Wire

/-- A payload of a given length, whatever it stands for. -/
def StringLiteral.skimPayload (length : Nat) (octets : Octets) : Reading Unit :=
  if octets.length < length then .incomplete else .complete () (octets.drop length)

/-- A string literal, whatever it stands for. -/
def StringLiteral.skim (octets : Octets) : Reading Unit :=
  (readLength octets).andThen fun flagged ↦ skimPayload flagged.2

/-- The octets are a whole literal that is never indexed. Its index may refer to nothing, and its
strings need not decode. -/
def IsNeverIndexedLiteral (octets : Octets) : Prop :=
  ∃ octet others, octets = octet :: others ∧
    Opening.ofBits (Bits.ofNat 8 octet.toNat) = (.literal .never, 4) ∧
    ∃ index afterIndex, PrefixedInteger.read 4 octets = .complete index afterIndex ∧
      ∃ afterName,
        (if index = 0 then StringLiteral.skim afterIndex = .complete () afterName
          else afterName = afterIndex) ∧
        StringLiteral.skim afterName = .complete () []

theorem StringLiteral.skimPayload_eq_complete_iff {length : Nat} {octets rest : Octets} :
    skimPayload length octets = .complete () rest ↔
      length ≤ octets.length ∧ rest = octets.drop length := by
  unfold skimPayload
  by_cases hlength : octets.length < length
  · rw [if_pos hlength]
    exact iff_of_false nofun fun hboth ↦ Nat.not_le_of_lt hlength hboth.1
  · rw [if_neg hlength, Reading.complete.injEq]
    exact ⟨fun hboth ↦ ⟨Nat.le_of_not_lt hlength, hboth.2.symm⟩, fun hboth ↦ ⟨rfl, hboth.2.symm⟩⟩

theorem StringLiteral.skim_of_read {octets text rest : Octets}
    (hread : read octets = .complete text rest) : skim octets = .complete () rest := by
  obtain ⟨flagged, middle, hlength, hpayload⟩ := Reading.andThen_eq_complete_iff.1 hread
  rw [skim, hlength, Reading.andThen_complete, skimPayload_eq_complete_iff]
  exact eq_drop_of_readPayload hpayload

/-- Every representation of this kind is such a literal. -/
theorem isNeverIndexedLiteral_of_read {octets value : Octets} {name : LiteralName}
    (hread : HeaderRepresentation.read octets = .complete (.literal .never name value) []) :
    IsNeverIndexedLiteral octets := by
  cases octets with
  | nil => cases hread
  | cons octet others =>
    obtain ⟨index, afterIndex, hindex, hafter⟩ := Reading.andThen_eq_complete_iff.1 hread
    have hwidth := Opening.ofBits_ofNat octet
    cases hopening : Opening.ofOctet octet with
    | indexed =>
      rw [hwidth, hopening] at hafter
      cases hafter
    | sizeUpdate =>
      rw [hwidth, hopening] at hafter
      cases hafter
    | literal indexing =>
      rw [hwidth, hopening] at hafter hindex
      obtain ⟨found, afterName, hname, hliteral⟩ := Reading.andThen_eq_complete_iff.1 hafter
      obtain ⟨text, htext, hsame⟩ := Reading.map_eq_complete_iff.1 hliteral
      obtain ⟨rfl, rfl, rfl⟩ := HeaderRepresentation.literal.inj hsame
      rw [hopening] at hwidth
      refine ⟨octet, others, rfl, hwidth, index, afterIndex, hindex, afterName, ?_,
        StringLiteral.skim_of_read htext⟩
      unfold LiteralName.readAfter at hname
      by_cases hzero : index = 0
      · rw [if_pos hzero] at hname ⊢
        obtain ⟨spelled, hspelled, -⟩ := Reading.map_eq_complete_iff.1 hname
        exact StringLiteral.skim_of_read hspelled
      · rw [if_neg hzero] at hname ⊢
        exact (Reading.complete.inj hname).2.symm

end Wire

/-- The octets complete a literal that is never indexed and has been read up to this stage. -/
def Stage.Lacks : Stage → Octets → Prop
  | .boundary, octets => IsNeverIndexedLiteral octets
  | .index opening, octets =>
    opening = .literal .never ∧ ∃ value rest,
      PrefixedInteger.readContinuation octets = .complete value rest ∧
        StringLiteral.skim rest = .complete () []
  | .nameLength indexing part, octets =>
    indexing = .never ∧ ∃ flagged middle, part.readRest octets = .complete flagged middle ∧
      ∃ rest, StringLiteral.skimPayload flagged.2 middle = .complete () rest ∧
        StringLiteral.skim rest = .complete () []
  | .name indexing _ length, octets =>
    indexing = .never ∧ 0 < length ∧
      ∃ rest, StringLiteral.skimPayload length octets = .complete () rest ∧
        StringLiteral.skim rest = .complete () []
  | .skippedName indexing remaining, octets =>
    indexing = .never ∧ 0 < remaining ∧
      ∃ rest, StringLiteral.skimPayload remaining octets = .complete () rest ∧
        StringLiteral.skim rest = .complete () []
  | .valueLength indexing _ part, octets =>
    indexing = .never ∧ ∃ flagged middle, part.readRest octets = .complete flagged middle ∧
      StringLiteral.skimPayload flagged.2 middle = .complete () []
  | .value indexing _ _ length, octets =>
    indexing = .never ∧ 0 < length ∧ StringLiteral.skimPayload length octets = .complete () []
  | .skippedValue remaining, octets =>
    0 < remaining ∧ StringLiteral.skimPayload remaining octets = .complete () []

namespace Decoder

variable {decoder next : Decoder} {header? : Option Header} {unread rest : Octets}

/-- What becomes of a literal that is never indexed when its next element was read. -/
structure KeepsSecret (decoder next : Decoder) (header? : Option Header) (rest : Octets) :
    Prop where
  table : next.table = decoder.table
  sensitive : ∀ header ∈ header?, header.sensitive = true
  stage : next.stage = .boundary ∧ rest = [] ∨ next.stage.Lacks rest

def Transition.KeepsSecret (decoder : Decoder) (transition : Transition) (rest : Octets) : Prop :=
  ∀ next header?, transition = .ok (next, header?) → decoder.KeepsSecret next header? rest

/-! ## One rule for each element -/

theorem Transition.keepsSecret_ok {completed : Decoder × Option Header}
    (hkeeps : decoder.KeepsSecret completed.1 completed.2 rest) :
    Transition.KeepsSecret decoder (.ok completed) rest := by
  intro next header? hnext
  rw [Except.ok.inj hnext] at hkeeps
  exact hkeeps

theorem Transition.keepsSecret_error (error : DecodingError) :
    Transition.KeepsSecret decoder (.error error) rest := by
  intro next header? hnext
  cases hnext

theorem enter_keepsSecret {start : Decoder} (htable : start.table = decoder.table) {stage : Stage}
    (hstage : stage.Lacks rest) : Transition.KeepsSecret decoder (start.enter stage) rest :=
  Transition.keepsSecret_ok
    ⟨htable, fun _ hheader ↦ absurd hheader (Option.not_mem_none _), .inr hstage⟩

theorem table_passesOver_never (decoder : Decoder) (length : Nat) :
    (decoder.passesOver .never length).2.table = decoder.table := by
  unfold passesOver
  split <;> rfl

theorem deliverLiteral_never_keepsSecret {start : Decoder} (htable : start.table = decoder.table)
    (field : Field) :
    Transition.KeepsSecret decoder (.ok (start.deliverLiteral .never field)) [] := by
  refine Transition.keepsSecret_ok ⟨?_, ?_, .inl ⟨stage_deliverLiteral start .never field, rfl⟩⟩
  · unfold deliverLiteral deliver
    dsimp only
    split <;> exact htable
  · unfold deliverLiteral deliver
    dsimp only
    split
    · intro header hheader
      obtain rfl := Option.some.inj hheader
      rfl
    · exact fun _ hheader ↦ absurd hheader (Option.not_mem_none _)

theorem skipValue_keepsSecret {start : Decoder} (htable : start.table = decoder.table)
    {length : Nat} (hlength : StringLiteral.skimPayload length rest = .complete () []) :
    Transition.KeepsSecret decoder (start.skipValue length) rest := by
  unfold skipValue
  by_cases hzero : length = 0
  · rw [if_pos hzero]
    obtain ⟨-, hrest⟩ := StringLiteral.skimPayload_eq_complete_iff.1 hlength
    rw [hzero, List.drop_zero] at hrest
    exact Transition.keepsSecret_ok
      ⟨htable, fun _ hheader ↦ absurd hheader (Option.not_mem_none _), .inl ⟨rfl, hrest.symm⟩⟩
  · rw [if_neg hzero]
    exact enter_keepsSecret htable ⟨Nat.pos_of_ne_zero hzero, hlength⟩

theorem indexKnown_keepsSecret {value : Nat} {afterName : Octets}
    (hname : if value = 0 then StringLiteral.skim rest = .complete () afterName
      else afterName = rest)
    (hvalue : StringLiteral.skim afterName = .complete () []) :
    Transition.KeepsSecret decoder (decoder.indexKnown (.literal .never) value) rest := by
  unfold indexKnown
  dsimp only
  by_cases hzero : value = 0
  · rw [if_pos hzero] at hname ⊢
    obtain ⟨flagged, middle, hlength, hpayload⟩ := Reading.andThen_eq_complete_iff.1 hname
    exact enter_keepsSecret rfl ⟨rfl, flagged, middle, hlength, afterName, hpayload, hvalue⟩
  · rw [if_neg hzero] at hname ⊢
    subst hname
    obtain ⟨flagged, middle, hlength, hpayload⟩ := Reading.andThen_eq_complete_iff.1 hvalue
    cases IndexSpace.resolve decoder.table value with
    | error error => exact Transition.keepsSecret_error error
    | ok field => exact enter_keepsSecret rfl ⟨rfl, flagged, middle, hlength, hpayload⟩

theorem openingKnown_keepsSecret {octet : UInt8}
    (hliteral : IsNeverIndexedLiteral (octet :: rest)) :
    Transition.KeepsSecret decoder (decoder.openingKnown octet) rest := by
  obtain ⟨_, _, hoctets, hopening, index, afterIndex, hindex, afterName, hname, hvalue⟩ := hliteral
  obtain ⟨rfl, rfl⟩ := List.cons.inj hoctets
  rw [Opening.ofBits_ofNat] at hopening
  have hnever : Opening.ofOctet octet = .literal .never := (Prod.mk.inj hopening).1
  have hwidth : (Opening.literal .never).width = 4 := rfl
  unfold openingKnown
  dsimp only
  rw [hnever, hwidth]
  unfold PrefixedInteger.read at hindex
  dsimp only at hindex
  cases hlow : PrefixedInteger.lowBits? 4 octet with
  | some value =>
    rw [hlow] at hindex
    obtain ⟨rfl, rfl⟩ := Reading.complete.inj hindex
    exact indexKnown_keepsSecret hname hvalue
  | none =>
    rw [hlow] at hindex
    obtain ⟨value, hcontinuation, rfl⟩ := Reading.map_eq_complete_iff.1 hindex
    have hones : Bits.ones 4 = 15 := rfl
    rw [if_neg (by omega)] at hname
    subst hname
    exact enter_keepsSecret rfl ⟨rfl, value, afterName, hcontinuation, hvalue⟩

theorem nameLengthKnown_keepsSecret {huffman : Bool} {length : Nat} {afterName : Octets}
    (hname : StringLiteral.skimPayload length rest = .complete () afterName)
    (hvalue : StringLiteral.skim afterName = .complete () []) :
    Transition.KeepsSecret decoder (decoder.nameLengthKnown .never huffman length) rest := by
  unfold nameLengthKnown
  by_cases hzero : length = 0
  · rw [if_pos hzero]
    exact Transition.keepsSecret_error .emptyName
  · have hpos := Nat.pos_of_ne_zero hzero
    rw [if_neg hzero]
    dsimp only
    refine enter_keepsSecret (table_passesOver_never decoder _) ?_
    split
    · exact ⟨rfl, hpos, afterName, hname, hvalue⟩
    · exact ⟨rfl, hpos, afterName, hname, hvalue⟩

theorem nameKnown_keepsSecret (name : Octets)
    (hvalue : StringLiteral.skim rest = .complete () []) :
    Transition.KeepsSecret decoder (decoder.nameKnown .never name) rest := by
  unfold nameKnown
  split
  · exact Transition.keepsSecret_error .emptyName
  · obtain ⟨flagged, middle, hlength, hpayload⟩ := Reading.andThen_eq_complete_iff.1 hvalue
    exact enter_keepsSecret rfl ⟨rfl, flagged, middle, hlength, hpayload⟩

theorem valueLengthKnown_keepsSecret (name? : Option Octets) {huffman : Bool} {length : Nat}
    (hvalue : StringLiteral.skimPayload length rest = .complete () []) :
    Transition.KeepsSecret decoder (decoder.valueLengthKnown .never name? huffman length) rest := by
  unfold valueLengthKnown
  cases name? with
  | none => exact skipValue_keepsSecret rfl hvalue
  | some name =>
    have htable := table_passesOver_never decoder
      (name.length + StringLiteral.minimumDecodedLength huffman length)
    dsimp only
    split
    · exact skipValue_keepsSecret htable hvalue
    · by_cases hzero : length = 0
      · obtain ⟨-, hrest⟩ := StringLiteral.skimPayload_eq_complete_iff.1 hvalue
        rw [hzero, List.drop_zero] at hrest
        rw [if_pos hzero, ← hrest]
        exact deliverLiteral_never_keepsSecret htable _
      · rw [if_neg hzero]
        exact enter_keepsSecret htable ⟨rfl, Nat.pos_of_ne_zero hzero, hvalue⟩

/-! ## Steps -/

/-- A step into such a literal never waits. -/
def Step.KeepsSecret (decoder : Decoder) : Step → Prop
  | .advanced next header? rest => decoder.KeepsSecret next header? rest
  | .waiting _ _ => False
  | .failed _ _ => True

theorem stepWith_keepsSecret {α : Type} {reader : Octets → Reading α}
    {consequence : α → Transition} (hread : reader unread ≠ .incomplete)
    (hconsequence : ∀ element rest, reader unread = .complete element rest →
      Transition.KeepsSecret decoder (consequence element) rest) :
    (decoder.stepWith unread reader consequence).KeepsSecret decoder := by
  unfold stepWith
  cases hreading : reader unread with
  | incomplete => exact absurd hreading hread
  | failed error rest => exact trivial
  | complete element rest =>
    have helement := hconsequence element rest hreading
    dsimp only
    cases htransition : consequence element with
    | error error => exact trivial
    | ok completed => exact helement completed.1 completed.2 htransition

theorem stepWith_keepsSecret_of_complete {α : Type} {reader : Octets → Reading α}
    {consequence : α → Transition} {element : α} (hread : reader unread = .complete element rest)
    (hconsequence : Transition.KeepsSecret decoder (consequence element) rest) :
    (decoder.stepWith unread reader consequence).KeepsSecret decoder := by
  refine stepWith_keepsSecret (by rw [hread]; exact nofun) ?_
  intro other others hother
  rw [hread] at hother
  obtain ⟨rfl, rfl⟩ := Reading.complete.inj hother
  exact hconsequence

/-- A payload that has arrived is read or refused as a whole. -/
theorem stepWith_readPayload_keepsSecret {huffman : Bool} {length : Nat}
    {consequence : Octets → Transition}
    (hlength : StringLiteral.skimPayload length unread = .complete () rest)
    (hconsequence : ∀ text, Transition.KeepsSecret decoder (consequence text) rest) :
    (decoder.stepWith unread (StringLiteral.readPayload huffman length)
      consequence).KeepsSecret decoder := by
  obtain ⟨harrived, rfl⟩ := StringLiteral.skimPayload_eq_complete_iff.1 hlength
  refine stepWith_keepsSecret ?_ ?_
  · rw [StringLiteral.readPayload_of_length_le harrived]
    exact Reading.ofExcept_ne_incomplete _ _
  · intro text others htext
    obtain ⟨-, rfl⟩ := StringLiteral.eq_drop_of_readPayload htext
    exact hconsequence text

theorem stepSkipping_keepsSecret {remaining : Nat} {more : Nat → Stage} {done : Stage}
    (hlength : StringLiteral.skimPayload remaining unread = .complete () rest)
    (hdone : done = .boundary ∧ rest = [] ∨ done.Lacks rest) :
    (decoder.stepSkipping unread remaining more done).KeepsSecret decoder := by
  obtain ⟨harrived, rfl⟩ := StringLiteral.skimPayload_eq_complete_iff.1 hlength
  unfold stepSkipping
  rw [if_neg (Nat.not_lt.2 harrived)]
  exact ⟨rfl, fun _ hheader ↦ absurd hheader (Option.not_mem_none _), hdone⟩

theorem step_keepsSecret (hlacks : decoder.stage.Lacks unread) :
    (decoder.step unread).KeepsSecret decoder := by
  unfold step
  cases hstage : decoder.stage with
  | boundary =>
    rw [hstage] at hlacks
    obtain ⟨octet, others, rfl, -⟩ := id hlacks
    exact stepWith_keepsSecret_of_complete rfl (openingKnown_keepsSecret hlacks)
  | index opening =>
    rw [hstage] at hlacks
    obtain ⟨rfl, value, rest, hread, hvalue⟩ := hlacks
    refine stepWith_keepsSecret_of_complete hread (indexKnown_keepsSecret ?_ hvalue)
    have hones : Bits.ones (Opening.literal .never).width = 15 := rfl
    rw [if_neg (by omega)]
  | nameLength indexing part =>
    rw [hstage] at hlacks
    obtain ⟨rfl, flagged, middle, hlength, rest, hname, hvalue⟩ := hlacks
    rw [LengthPart.readRest_eq] at hlength
    obtain ⟨reading, after, hread, hrest⟩ := Reading.andThen_eq_complete_iff.1 hlength
    refine stepWith_keepsSecret_of_complete hread ?_
    cases reading with
    | toBeContinued huffman =>
      exact enter_keepsSecret rfl ⟨rfl, flagged, middle, hrest, rest, hname, hvalue⟩
    | known huffman length =>
      obtain ⟨rfl, rfl⟩ := Reading.complete.inj hrest
      exact nameLengthKnown_keepsSecret hname hvalue
  | name indexing huffman length =>
    rw [hstage] at hlacks
    obtain ⟨rfl, -, rest, hname, hvalue⟩ := hlacks
    exact stepWith_readPayload_keepsSecret hname fun name ↦ nameKnown_keepsSecret name hvalue
  | skippedName indexing remaining =>
    rw [hstage] at hlacks
    obtain ⟨rfl, -, rest, hname, hvalue⟩ := hlacks
    obtain ⟨flagged, middle, hlength, hpayload⟩ := Reading.andThen_eq_complete_iff.1 hvalue
    exact stepSkipping_keepsSecret hname (.inr ⟨rfl, flagged, middle, hlength, hpayload⟩)
  | valueLength indexing name? part =>
    rw [hstage] at hlacks
    obtain ⟨rfl, flagged, middle, hlength, hvalue⟩ := hlacks
    rw [LengthPart.readRest_eq] at hlength
    obtain ⟨reading, after, hread, hrest⟩ := Reading.andThen_eq_complete_iff.1 hlength
    refine stepWith_keepsSecret_of_complete hread ?_
    cases reading with
    | toBeContinued huffman =>
      exact enter_keepsSecret rfl ⟨rfl, flagged, middle, hrest, hvalue⟩
    | known huffman length =>
      obtain ⟨rfl, rfl⟩ := Reading.complete.inj hrest
      exact valueLengthKnown_keepsSecret name? hvalue
  | value indexing name huffman length =>
    rw [hstage] at hlacks
    obtain ⟨rfl, -, hvalue⟩ := hlacks
    exact stepWith_readPayload_keepsSecret hvalue fun value ↦
      deliverLiteral_never_keepsSecret rfl ⟨name, value⟩
  | skippedValue remaining =>
    rw [hstage] at hlacks
    exact stepSkipping_keepsSecret hlacks.2 (.inl ⟨rfl, rfl⟩)

/-! ## Runs -/

theorem isProductive_of_lacks {stage : Stage} (hlacks : stage.Lacks unread) :
    stage.IsProductive := by
  cases stage with
  | name indexing huffman length => exact hlacks.2.1
  | skippedName indexing remaining => exact hlacks.2.1
  | value indexing name huffman length => exact hlacks.2.1
  | skippedValue remaining => exact hlacks.1
  | _ => exact trivial

theorem ne_nil_of_lacks (hlacks : decoder.stage.Lacks unread) : unread ≠ [] := by
  rintro rfl
  have hstep := step_keepsSecret hlacks
  rcases exists_reads_or_skips (isProductive_of_lacks hlacks) with
    ⟨reader, hreads⟩ | ⟨remaining, more, done, hskips⟩
  · rw [hreads.step_eq, hreads.nil] at hstep
    exact hstep
  · have hshort : ([] : Octets).length < remaining := hskips.pos
    rw [hskips.step_of_length_lt hshort] at hstep
    exact hstep

/-- A run through such a literal keeps the table, delivers nothing that is not sensitive, and reads
the literal to its end unless it is refused. -/
theorem run_keepsSecret {steps : Nat} (hlacks : decoder.stage.Lacks unread)
    (hsteps : unread.length ≤ steps) :
    let outcome := decoder.run steps unread
    outcome.decoder.table = decoder.table ∧
      (∀ header ∈ outcome.headers, header.sensitive = true) ∧
      (outcome.error? = none → outcome.rest = [] ∧ outcome.decoder.stage = .boundary) := by
  induction steps generalizing decoder unread with
  | zero =>
    have hnil := List.eq_nil_of_length_eq_zero (Nat.le_zero.1 hsteps)
    exact absurd hnil (ne_nil_of_lacks hlacks)
  | succ steps hrec =>
    have hkeeps := step_keepsSecret hlacks
    rw [run_succ (ne_nil_of_lacks hlacks)]
    cases hstep : decoder.step unread with
    | waiting next rest =>
      rw [hstep] at hkeeps
      exact hkeeps.elim
    | failed error rest =>
      exact ⟨rfl, fun _ hheader ↦ absurd hheader List.not_mem_nil,
        fun hnone ↦ absurd hnone (Option.some_ne_none error)⟩
    | advanced next header? rest =>
      rw [hstep] at hkeeps
      have hsensitive : ∀ header ∈ header?.toList, header.sensitive = true := fun header hheader ↦
        hkeeps.sensitive header (Option.mem_toList.1 hheader)
      rcases hkeeps.stage with ⟨hboundary, rfl⟩ | hmore
      · have hrun : next.run steps [] = { decoder := next, headers := [], rest := [] } :=
          run_nil steps
        dsimp only
        rw [hrun]
        refine ⟨hkeeps.table, fun header hheader ↦ ?_, fun _ ↦ ⟨rfl, hboundary⟩⟩
        exact hsensitive header ((List.mem_append.1 hheader).resolve_right List.not_mem_nil)
      · have hshorter := length_lt_of_step_advanced (isProductive_of_lacks hlacks) hstep
        obtain ⟨htable, hheaders, hend⟩ := hrec hmore (by omega)
        refine ⟨htable.trans hkeeps.table, fun header hheader ↦ ?_, hend⟩
        exact (List.mem_append.1 hheader).elim (hsensitive header) (hheaders header)

end Decoder

/-! ## Both ends -/

/-- The encoder keeps nothing of a sensitive value and writes it only as the coded string behind a
name that does not depend on it. The decoder keeps nothing of a literal of that kind and delivers it
as sensitive or not at all. -/
theorem sensitive_values_stay_out_of_tables :
    (∀ (encoder : Encoder) (headers others : List Header),
      List.Forall₂ Header.SameButSecret headers others →
        (encoder.encode others).2 = (encoder.encode headers).2 ∧
        (encoder.encode headers).2 =
          (encoder.encode (headers.filter fun header ↦ !header.sensitive)).2 ∧
        (encoder.encode headers).1 = (encoder.segments headers).flatten ∧
        (encoder.encode others).1 = (encoder.segments others).flatten ∧
        ∀ place header other, headers[place]? = some header → others[place]? = some other →
          let reached := (encoder.encode (headers.take place)).2
          (header.sensitive = false →
            (encoder.segments headers)[place]? = some (reached.encodeHeader header).1 ∧
            (encoder.segments others)[place]? = some (reached.encodeHeader header).1) ∧
          (header.sensitive = true →
            (∃ octet rest, reached.secretPrefix header.field.name = octet :: rest ∧
              Opening.ofOctet octet = .literal .never) ∧
            (encoder.segments headers)[place]? = some (reached.secretPrefix header.field.name ++
              StringLiteral.encode reached.huffman header.field.value) ∧
            (encoder.segments others)[place]? = some (reached.secretPrefix header.field.name ++
              StringLiteral.encode reached.huffman other.field.value))) ∧
    ∀ (decoder : Decoder) (queue : Queue), decoder.stage = .boundary →
      IsNeverIndexedLiteral queue.unread →
        let outcome := (decoder.decode queue).1
        outcome.decoder.table = decoder.table ∧
        (∀ header ∈ outcome.headers, header.sensitive = true) ∧
        (outcome.error? = none → outcome.rest = [] ∧ outcome.decoder.stage = .boundary) := by
  constructor
  · intro encoder headers others hsame
    refine ⟨Encoder.encode_snd_of_sameButSecret hsame, encoder.encode_snd_eq_filter headers,
      (encoder.flatten_segments headers).symm, (encoder.flatten_segments others).symm, ?_⟩
    intro place header other hheader hother
    obtain ⟨hpublic, hsecret⟩ := Encoder.segments_of_sameButSecret hsame hheader hother
    exact ⟨hpublic, fun hsensitive ↦ ⟨Encoder.exists_secretPrefix_eq_cons _ _,
      hsecret hsensitive⟩⟩
  · intro decoder queue hboundary hliteral
    have hlacks : decoder.stage.Lacks queue.unread := by
      rw [hboundary]
      exact hliteral
    exact Decoder.run_keepsSecret hlacks (Nat.le_refl queue.unread.length)

/-- Two values of a cookie that stands between two other headers, and the octets that the first
value is sent as. -/
theorem sensitive_values_stay_out_of_tables_of_cookie :
    let encoder : Encoder := .ofSettings { huffman := .never }
    let accept : Header := { field := .mk [0x61] [0x62] }
    let cookie (value : Octets) : Header :=
      { field := .mk (Octets.ofText "cookie") value, sensitive := true }
    let decoder : Decoder := .ofSettings { listSizeLimit := 0 }
    let literal : Octets := [0x1F, 0x11, 0x02, 0x68, 0x69]
    (encoder.encode [accept, cookie [0x68, 0x69], accept]).2 =
        (encoder.encode [accept, cookie [], accept]).2 ∧
      (decoder.decode (.ofOctets literal)).1.decoder.table = decoder.table := by
  refine ⟨?_, ?_⟩
  · have hcookie (value : Octets) : Header.SameButSecret
        { field := .mk (Octets.ofText "cookie") [], sensitive := true }
        { field := .mk (Octets.ofText "cookie") value, sensitive := true } :=
      ⟨rfl, rfl, fun hpublic ↦ absurd hpublic (by decide)⟩
    have haccept : Header.SameButSecret { field := .mk [0x61] [0x62] }
        { field := .mk [0x61] [0x62] } := ⟨rfl, rfl, fun _ ↦ rfl⟩
    exact (sensitive_values_stay_out_of_tables.1 _ _ _
      (.cons haccept (.cons (hcookie [0x68, 0x69]) (.cons haccept .nil)))).1
  · have hread : HeaderRepresentation.read [0x1F, 0x11, 0x02, 0x68, 0x69] =
        .complete (.literal .never (.indexed 32) [0x68, 0x69]) [] := by
      decide +kernel
    exact (sensitive_values_stay_out_of_tables.2 _ (.ofOctets [0x1F, 0x11, 0x02, 0x68, 0x69]) rfl
      (isNeverIndexedLiteral_of_read hread)).1

end HeaderCompression
