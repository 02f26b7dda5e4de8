import HeaderCompression.Proofs.Table.IndexSpace
import HeaderCompression.Proofs.Wire.Grammar

/-!
# Decoding whole representations

A list decoder reads one representation after the other, each of them as a whole, and keeps its
table as a list. Every element is checked as soon as it has been read: an index must refer to a
field, a name must not be empty, and a capacity must be within the limit.
-/

namespace HeaderCompression

open Octets Table Wire

structure ListDecoder where
  table : ListTable
  /-- The largest capacity that the peer may ask for. -/
  tableSizeLimit : Nat

namespace ListDecoder

/-! ## What representations mean -/

/-- The name that a literal gives. -/
def nameOf (decoder : ListDecoder) : LiteralName → Except DecodingError Octets
  | .indexed index => (decoder.table.resolve index).map Field.name
  | .literal name => if name = [] then .error .emptyName else .ok name

/-- A literal adds its field to the table only with incremental indexing. -/
def insert (decoder : ListDecoder) (indexing : Indexing) (field : Field) : ListDecoder :=
  match indexing with
  | .incremental => { decoder with table := decoder.table.add field }
  | _ => decoder

/-- The decoder after a literal, and the header that the literal stands for. -/
def complete (decoder : ListDecoder) (indexing : Indexing) (name value : Octets) :
    ListDecoder × Option Header :=
  (decoder.insert indexing ⟨name, value⟩,
    some { field := ⟨name, value⟩, sensitive := indexing = .never })

def resize (decoder : ListDecoder) (capacity : Nat) : Except DecodingError ListDecoder :=
  if decoder.tableSizeLimit < capacity then
    .error (.capacityTooLarge capacity decoder.tableSizeLimit)
  else .ok { decoder with table := decoder.table.setCapacity capacity }

/-- The decoder after a representation, and the header that the representation stands for. -/
def apply (decoder : ListDecoder) :
    HeaderRepresentation → Except DecodingError (ListDecoder × Option Header)
  | .indexed index =>
    (decoder.table.resolve index).map fun field ↦ (decoder, some { field })
  | .literal indexing name value =>
    (decoder.nameOf name).map fun name ↦ decoder.complete indexing name value
  | .sizeUpdate capacity => (decoder.resize capacity).map fun resized ↦ (resized, none)

/-! ## Reading with checks -/

/-- The value of a literal with a known name. -/
def readValue (decoder : ListDecoder) (indexing : Indexing) (name octets : Octets) :
    Reading (ListDecoder × Option Header) :=
  (StringLiteral.read octets).map (decoder.complete indexing name)

/-- What follows the index or the capacity of a representation. -/
def readAfter (decoder : ListDecoder) (opening : Opening) (value : Nat) (octets : Octets) :
    Reading (ListDecoder × Option Header) :=
  match opening with
  | .indexed => .ofExcept (decoder.apply (.indexed value)) octets
  | .literal indexing =>
    (LiteralName.readAfter value octets).andThen fun literalName rest ↦
      (Reading.ofExcept (decoder.nameOf literalName) rest).andThen (decoder.readValue indexing)
  | .sizeUpdate => .ofExcept (decoder.apply (.sizeUpdate value)) octets

/-- A whole representation. -/
def read (decoder : ListDecoder) : Octets → Reading (ListDecoder × Option Header)
  | [] => .incomplete
  | octet :: rest =>
    let opening := Opening.ofBits (Bits.ofNat 8 octet.toNat)
    (PrefixedInteger.read opening.2 (octet :: rest)).andThen (decoder.readAfter opening.1)

/-! ## Checks and grammar -/

variable {decoder : ListDecoder} {octets rest : Octets} {completed : ListDecoder × Option Header}

theorem exceptMap_eq_ok_iff {α β : Type} {convert : α → β} {result : Except DecodingError α}
    {value : β} :
    result.map convert = .ok value ↔ ∃ element, result = .ok element ∧ convert element = value := by
  cases result <;> simp [Except.map]

theorem readAfter_eq_complete_iff {opening : Opening} {value : Nat} :
    decoder.readAfter opening value octets = .complete completed rest ↔
      ∃ representation,
        HeaderRepresentation.readAfter opening value octets = .complete representation rest ∧
          decoder.apply representation = .ok completed := by
  cases opening with
  | indexed =>
    simp only [readAfter, HeaderRepresentation.readAfter, Reading.ofExcept_eq_complete_iff]
    constructor
    · rintro ⟨happly, rfl⟩
      exact ⟨_, rfl, happly⟩
    · rintro ⟨representation, hread, happly⟩
      obtain ⟨rfl, rfl⟩ := Reading.complete.inj hread
      exact ⟨happly, rfl⟩
  | sizeUpdate =>
    simp only [readAfter, HeaderRepresentation.readAfter, Reading.ofExcept_eq_complete_iff]
    constructor
    · rintro ⟨happly, rfl⟩
      exact ⟨_, rfl, happly⟩
    · rintro ⟨representation, hread, happly⟩
      obtain ⟨rfl, rfl⟩ := Reading.complete.inj hread
      exact ⟨happly, rfl⟩
  | literal indexing =>
    simp only [readAfter, HeaderRepresentation.readAfter, readValue,
      Reading.andThen_eq_complete_iff, Reading.ofExcept_eq_complete_iff,
      Reading.map_eq_complete_iff]
    constructor
    · rintro ⟨literalName, middle, hname, name, _, ⟨hnameOf, rfl⟩, text, htext, hcompleted⟩
      refine ⟨.literal indexing literalName text,
        ⟨literalName, middle, hname, text, htext, rfl⟩, ?_⟩
      exact exceptMap_eq_ok_iff.2 ⟨name, hnameOf, hcompleted⟩
    · rintro ⟨_, ⟨literalName, middle, hname, text, htext, rfl⟩, happly⟩
      obtain ⟨name, hnameOf, hcompleted⟩ := exceptMap_eq_ok_iff.1 happly
      exact ⟨literalName, middle, hname, name, middle, ⟨hnameOf, rfl⟩, text, htext, hcompleted⟩

/-- Reading with checks succeeds on the representations whose meaning is defined. -/
theorem read_eq_complete_iff :
    decoder.read octets = .complete completed rest ↔
      ∃ representation, HeaderRepresentation.read octets = .complete representation rest ∧
        decoder.apply representation = .ok completed := by
  cases octets with
  | nil => simp [read, HeaderRepresentation.read]
  | cons octet octets =>
    simp only [read, HeaderRepresentation.read, Reading.andThen_eq_complete_iff,
      readAfter_eq_complete_iff]
    constructor
    · rintro ⟨value, middle, hvalue, representation, hafter, happly⟩
      exact ⟨representation, ⟨value, middle, hvalue, hafter⟩, happly⟩
    · rintro ⟨representation, ⟨value, middle, hvalue, hafter⟩, happly⟩
      exact ⟨value, middle, hvalue, representation, hafter, happly⟩

/-- The checks never ask for more octets than the grammar does. -/
theorem read_incomplete (hread : decoder.read octets = .incomplete) :
    HeaderRepresentation.read octets = .incomplete := by
  cases octets with
  | nil => rfl
  | cons octet octets =>
    simp only [read, HeaderRepresentation.read, Reading.andThen_eq_incomplete_iff] at hread ⊢
    rcases hread with hvalue | ⟨value, middle, hvalue, hafter⟩
    · exact .inl hvalue
    · refine .inr ⟨value, middle, hvalue, ?_⟩
      generalize (Opening.ofBits (Bits.ofNat 8 octet.toNat)).1 = opening at hafter ⊢
      cases opening with
      | indexed => exact absurd hafter (Reading.ofExcept_ne_incomplete _ _)
      | sizeUpdate => exact absurd hafter (Reading.ofExcept_ne_incomplete _ _)
      | literal indexing =>
        simp only [readAfter, HeaderRepresentation.readAfter, readValue,
          Reading.andThen_eq_incomplete_iff, Reading.map_eq_incomplete_iff,
          Reading.ofExcept_eq_complete_iff] at hafter ⊢
        rcases hafter with hname | ⟨literalName, left, hname, hrest⟩
        · exact .inl hname
        · rcases hrest with hnameOf | ⟨name, other, ⟨-, rfl⟩, htext⟩
          · exact absurd hnameOf (Reading.ofExcept_ne_incomplete _ _)
          · exact .inr ⟨literalName, left, hname, htext⟩

theorem length_lt_of_read (hread : decoder.read octets = .complete completed rest) :
    rest.length < octets.length := by
  obtain ⟨representation, hgrammar, -⟩ := read_eq_complete_iff.1 hread
  exact HeaderRepresentation.prefixwise_read.length_lt rfl (.ok representation) hgrammar

/-! ## Blocks -/

/-- What decoding has come to when it stops. -/
structure Outcome where
  decoder : ListDecoder
  /-- The headers that the complete representations stand for, in order. -/
  headers : List Header
  /-- Whether the octets end inside a representation. -/
  isPartial : Bool
  error? : Option DecodingError := none

/-- What decoding a whole block comes to. -/
def Outcome.whole (decoder : ListDecoder) (headers : List Header) : Outcome :=
  { decoder, headers, isPartial := false }

def Outcome.after (header? : Option Header) (outcome : Outcome) : Outcome :=
  { outcome with headers := header?.toList ++ outcome.headers }

/-- Read representations until one is incomplete or fails. -/
def decode (decoder : ListDecoder) (octets : Octets) : Outcome :=
  if octets = [] then { decoder, headers := [], isPartial := false }
  else
    match _ : decoder.read octets with
    | .complete completed rest => (completed.1.decode rest).after completed.2
    | .incomplete => { decoder, headers := [], isPartial := true }
    | .failed error _ => { decoder, headers := [], isPartial := true, error? := some error }
termination_by octets.length
decreasing_by
  rename_i hread
  exact length_lt_of_read hread

/-- What a reading of the first representation leads to. -/
def finish (decoder : ListDecoder) : Reading (ListDecoder × Option Header) → Outcome
  | .complete completed rest => (completed.1.decode rest).after completed.2
  | .incomplete => { decoder, headers := [], isPartial := true }
  | .failed error _ => { decoder, headers := [], isPartial := true, error? := some error }

theorem decode_nil (decoder : ListDecoder) :
    decoder.decode [] = { decoder, headers := [], isPartial := false } := by
  rw [decode, if_pos rfl]

theorem decode_of_ne_nil (hne : octets ≠ []) :
    decoder.decode octets = decoder.finish (decoder.read octets) := by
  rw [decode, if_neg hne]
  split
  · rename_i completed rest hread
    rw [hread, finish]
  · rename_i hread
    rw [hread, finish]
  · rename_i error rest hread
    rw [hread, finish]

/-- Octets that decode without an error are partial unless they are a block. -/
theorem isPartial_decode_eq_false_iff (herror : (decoder.decode octets).error? = none) :
    (decoder.decode octets).isPartial = false ↔ IsBlock octets := by
  induction hlength : octets.length using Nat.strongRecOn generalizing decoder octets with
  | ind length hshorter =>
    subst hlength
    by_cases hne : octets = []
    · subst hne
      rw [decode_nil]
      exact iff_of_true rfl isBlock_nil
    · rw [decode_of_ne_nil hne] at herror ⊢
      cases hread : decoder.read octets with
      | incomplete =>
        refine iff_of_false (by simp [finish]) fun hblock ↦ ?_
        obtain ⟨representation, rest, hgrammar, -⟩ := hblock.exists_read hne
        rw [read_incomplete hread] at hgrammar
        cases hgrammar
      | failed error rest =>
        rw [hread] at herror
        cases herror
      | complete completed rest =>
        rw [hread] at herror
        have hrest := hshorter rest.length (length_lt_of_read hread) herror rfl
        obtain ⟨representation, hgrammar, -⟩ := read_eq_complete_iff.1 hread
        refine hrest.trans ⟨isBlock_of_read hgrammar, fun hblock ↦ ?_⟩
        obtain ⟨other, others, hother, hblock⟩ := hblock.exists_read hne
        rw [hgrammar] at hother
        obtain ⟨-, rfl⟩ := Reading.complete.inj hother
        exact hblock

end ListDecoder

end HeaderCompression
