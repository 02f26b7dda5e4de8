import HeaderCompression.Proofs.Decoder.Moves
import HeaderCompression.Proofs.Decoder.Runs
import HeaderCompression.Proofs.Wire.Continuations

/-!
# Where the decoder waits

A decoder that is not given an error leaves octets unread in two cases only. It is inside an integer
that goes on behind all of them, or in front of a string of which not everything has arrived. Octets
that are passed over and first octets are never left.
-/

namespace HeaderCompression

open Octets Wire

/-! ## Stages -/

namespace Stage

/-- The length of the string that is held back until all of it has arrived. -/
def awaited : Stage → Nat
  | .name _ _ length => length
  | .value _ _ _ length => length
  | _ => 0

/-- An integer has been begun, and its continuation comes next. -/
def AwaitsContinuation : Stage → Prop
  | .index _ => True
  | .nameLength _ (.continuation _) => True
  | .valueLength _ _ (.continuation _) => True
  | _ => False

/-- Octets that nobody needs come next. -/
def IsSkipping : Stage → Prop
  | .skippedName _ _ => True
  | .skippedValue _ => True
  | _ => False

/-- The octets are not enough for the element that comes next. -/
inductive IsShortOf (stage : Stage) (unread : Octets) : Prop
  | continuation (hstage : stage.AwaitsContinuation)
    (hunread : PrefixedInteger.IsContinuationStart unread)
  | payload (hlength : unread.length < stage.awaited)

variable {stage : Stage} {unread : Octets}

theorem not_isShortOf (hcontinuation : ¬stage.AwaitsContinuation) (hawaited : stage.awaited = 0) :
    ¬stage.IsShortOf unread := by
  intro hshort
  cases hshort with
  | continuation hstage hunread => exact hcontinuation hstage
  | payload hlength =>
    rw [hawaited] at hlength
    exact Nat.not_lt_zero _ hlength

theorem IsShortOf.ne_boundary (hshort : stage.IsShortOf unread) : stage ≠ .boundary := by
  rintro rfl
  exact not_isShortOf id rfl hshort

theorem IsShortOf.not_isSkipping (hshort : stage.IsShortOf unread) : ¬stage.IsSkipping := by
  intro hskipping
  cases stage with
  | skippedName indexing remaining => exact not_isShortOf id rfl hshort
  | skippedValue remaining => exact not_isShortOf id rfl hshort
  | _ => exact hskipping

end Stage

/-! ## Incomplete elements -/

theorem Octets.eq_nil_of_first_incomplete {octets : Octets} (hread : first octets = .incomplete) :
    octets = [] := by
  cases octets with
  | nil => rfl
  | cons octet octets => cases hread

theorem Wire.PrefixedInteger.isContinuationStart_of_incomplete {octets : Octets}
    (hread : readContinuation octets = .incomplete) : IsContinuationStart octets := by
  rcases continuation_cases octets with hstart | ⟨taken, rest, value, rfl, hwhole⟩ | ⟨rest, hlong⟩
  · exact hstart
  · rw [readContinuation_of_whole hwhole] at hread
    cases hread
  · rw [hlong] at hread
    cases hread

theorem Wire.StringLiteral.length_lt_of_readPayload_incomplete {huffman : Bool} {length : Nat}
    {octets : Octets} (hread : readPayload huffman length octets = .incomplete) :
    octets.length < length := by
  by_contra hlength
  rw [readPayload_of_length_le (Nat.le_of_not_lt hlength)] at hread
  exact Reading.ofExcept_ne_incomplete _ _ hread

theorem LengthPart.isContinuationStart_of_incomplete {part : LengthPart} {octets : Octets}
    (hread : part.read octets = .incomplete) (hne : octets ≠ []) :
    (∃ huffman, part = .continuation huffman) ∧ PrefixedInteger.IsContinuationStart octets := by
  cases part with
  | opening =>
    have hnil := eq_nil_of_first_incomplete (Reading.map_eq_incomplete_iff.1 hread)
    exact absurd hnil hne
  | continuation huffman =>
    have hcontinuation := Reading.map_eq_incomplete_iff.1 hread
    exact ⟨⟨huffman, rfl⟩, PrefixedInteger.isContinuationStart_of_incomplete hcontinuation⟩

/-! ## Steps and runs -/

namespace Decoder

variable {decoder next : Decoder} {unread rest : Octets}

/-- A step that waits leaves nothing, or too little. -/
theorem isShortOf_of_step_waiting (hstep : decoder.step unread = .waiting next rest)
    (hne : rest ≠ []) : next.stage.IsShortOf rest := by
  unfold step at hstep
  cases hstage : decoder.stage with
  | boundary =>
    rw [hstage] at hstep
    obtain ⟨hread, rfl, rfl⟩ := incomplete_of_stepWith_waiting hstep
    exact absurd (eq_nil_of_first_incomplete hread) hne
  | index opening =>
    rw [hstage] at hstep
    obtain ⟨hread, rfl, rfl⟩ := incomplete_of_stepWith_waiting hstep
    rw [hstage]
    exact .continuation trivial (PrefixedInteger.isContinuationStart_of_incomplete hread)
  | nameLength indexing part =>
    rw [hstage] at hstep
    obtain ⟨hread, rfl, rfl⟩ := incomplete_of_stepWith_waiting hstep
    obtain ⟨⟨huffman, rfl⟩, hstart⟩ := LengthPart.isContinuationStart_of_incomplete hread hne
    rw [hstage]
    exact .continuation trivial hstart
  | name indexing huffman length =>
    rw [hstage] at hstep
    obtain ⟨hread, rfl, rfl⟩ := incomplete_of_stepWith_waiting hstep
    rw [hstage]
    exact .payload (StringLiteral.length_lt_of_readPayload_incomplete hread)
  | skippedName indexing remaining =>
    rw [hstage] at hstep
    obtain ⟨-, -, rfl⟩ := waiting_of_stepSkipping hstep
    exact absurd rfl hne
  | valueLength indexing name? part =>
    rw [hstage] at hstep
    obtain ⟨hread, rfl, rfl⟩ := incomplete_of_stepWith_waiting hstep
    obtain ⟨⟨huffman, rfl⟩, hstart⟩ := LengthPart.isContinuationStart_of_incomplete hread hne
    rw [hstage]
    exact .continuation trivial hstart
  | value indexing name huffman length =>
    rw [hstage] at hstep
    obtain ⟨hread, rfl, rfl⟩ := incomplete_of_stepWith_waiting hstep
    rw [hstage]
    exact .payload (StringLiteral.length_lt_of_readPayload_incomplete hread)
  | skippedValue remaining =>
    rw [hstage] at hstep
    obtain ⟨-, -, rfl⟩ := waiting_of_stepSkipping hstep
    exact absurd rfl hne

theorem isShortOf_consume (hvalid : decoder.Valid) (unread : Octets)
    (herror : (decoder.consume unread).error? = none) (hne : (decoder.consume unread).rest ≠ []) :
    (decoder.consume unread).decoder.stage.IsShortOf (decoder.consume unread).rest := by
  induction decoder, unread, hvalid using consume_induction with
  | nil decoder hvalid => exact absurd rfl hne
  | advanced decoder unread next header? rest hvalid hstep hrest =>
    rw [consume_advanced hvalid hstep] at herror hne ⊢
    exact hrest herror hne
  | waiting decoder unread next rest hvalid hunread hstep =>
    rw [consume_waiting hvalid hunread hstep] at hne ⊢
    exact isShortOf_of_step_waiting hstep hne
  | failed decoder unread error rest hvalid hstep =>
    rw [consume_failed hvalid hstep] at herror
    cases herror

end Decoder

end HeaderCompression
