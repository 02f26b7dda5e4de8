import HeaderCompression.Proofs.Block.Histories
import HeaderCompression.Proofs.Decoder.LongestPart

/-!
# Exact truncation

Of the headers of a block a reader delivers the longest part within its limit, and it says at the
end of the block whether that was all. However malformed the octets are, and whatever else happens
before the block ends, the headers that are handed over stay within the limit.
-/

namespace HeaderCompression.Block.Reader

open Octets

variable {reader : Reader}

/-- The same reader with another limit on the header list. -/
def withLimit (reader : Reader) (limit : Nat) : Reader :=
  { reader with decoder := reader.decoder.withBudget { reader.decoder.budget with limit } }

/-! ## Whole blocks -/

theorem isReceivedAs_withLimit (hidle : reader.IsIdle) (limit : Nat) (fragments : List Octets) :
    ((reader.withLimit limit).decoder.consume fragments.flatten).IsReceivedAs
      ((reader.withLimit limit).decodeAll fragments) := by
  have hvalid := hidle.reachable.valid
  apply Decoder.isReceivedAs_decodeAll_of_valid
  · exact hvalid.withBudget hvalid.budget
  · exact hidle.isMarked
  · exact hidle.unread_eq_nil

/-- A block that is whole without a limit is whole with one, and its headers are truncated. -/
theorem consume_withLimit (hidle : reader.IsIdle) (hstart : reader.decoder.budget.used = 0)
    {limit : Nat} (hlimited : limit < Size.largest) {octets : Octets}
    (hwhole : ((reader.withLimit Size.largest).decoder.consume octets).IsWhole) :
    ((reader.withLimit limit).decoder.consume octets).IsWhole ∧
      ((reader.withLimit Size.largest).decoder.consume octets).Truncates { limit }
        ((reader.withLimit limit).decoder.consume octets) := by
  have hvalid := hidle.reachable.valid
  have hkept : (reader.withLimit Size.largest).decoder.Valid := hvalid.withBudget hvalid.budget
  have hpassed : (reader.withLimit limit).decoder.Valid := hvalid.withBudget hvalid.budget
  have hunlimited : (reader.withLimit Size.largest).decoder.IsUnlimited :=
    Decoder.isUnlimited_of_boundary hidle.atBoundary (Nat.le_refl Size.largest)
  have hbudget : ({ reader.decoder.budget with limit } : Budget) = { limit } :=
    congrArg (Budget.mk limit) hstart
  have hsame : (reader.withLimit limit).decoder =
      (reader.withLimit Size.largest).decoder.withBudget { limit } :=
    congrArg reader.decoder.withBudget hbudget
  refine ⟨(Decoder.consume_follows hkept hpassed hunlimited (.same rfl rfl) hwhole).1, ?_⟩
  rw [hsame]
  exact Decoder.consume_truncates hkept hunlimited hlimited (Nat.zero_le limit) hwhole

/-! ## Whatever happens within a block -/

/-- The headers that an operation hands over, those before an error included. -/
def handedOver (reader : Reader) : Operation → List Header
  | .decode fragment => (reader.decoder.decode (reader.input.append fragment)).1.headers
  | _ => []

/-- The headers that operations hand over, one after the other. -/
def allHandedOver (reader : Reader) : List Operation → List Header
  | [] => []
  | operation :: operations =>
    reader.handedOver operation ++ (reader.perform operation).allHandedOver operations

theorem perform_chargedBy {operation : Operation} (hinside : operation ≠ .endBlock) :
    reader.decoder.budget.ChargedBy (reader.perform operation).decoder.budget
      (reader.handedOver operation) := by
  cases operation with
  | endBlock => exact absurd rfl hinside
  | decode fragment =>
    rw [perform, decoder_decode_eq_run]
    exact reader.decoder.run_chargedBy _ _
  | resize capacity =>
    have hbudget : (reader.perform (.resize capacity)).decoder.budget = reader.decoder.budget := by
      rw [perform]
      unfold Decoder.resize
      split <;> rfl
    rw [hbudget]
    exact .refl reader.decoder.budget
  | _ => exact .refl reader.decoder.budget

theorem foldl_perform_chargedBy {operations : List Operation}
    (hinside : .endBlock ∉ operations) :
    reader.decoder.budget.ChargedBy (operations.foldl perform reader).decoder.budget
      (reader.allHandedOver operations) := by
  induction operations generalizing reader with
  | nil => exact .refl reader.decoder.budget
  | cons operation operations hoperations =>
    rw [List.mem_cons, not_or] at hinside
    exact (perform_chargedBy (Ne.symm hinside.1)).trans (hoperations hinside.2)

/-- Nothing beyond the limit is handed over before the block ends. -/
theorem totalLength_allHandedOver_le {operations : List Operation}
    (hinside : .endBlock ∉ operations) :
    min (totalLength (reader.allHandedOver operations)) Size.largest ≤
      reader.decoder.budget.limit := by
  have hnothing : reader.decoder.budget.Covers 0 := ⟨Nat.zero_le _, Nat.zero_le _⟩
  obtain ⟨hcovers, hlimit⟩ := hnothing.of_chargedBy (foldl_perform_chargedBy hinside)
  have hwithin := hcovers.limit
  rwa [Nat.zero_add, hlimit] at hwithin

/-! ## Both together -/

/-- At the start of a block, a reader whose limit is not the largest delivers the longest part
within its limit of what it would deliver without one, the end of the block tells whether that was
all, and nothing is carried over to the next block. Whatever the octets are and whatever else
happens, all that is handed over before the block ends stays within the limit, counted in sizes,
which stick at the largest one. -/
theorem truncation_is_exact (hidle : reader.IsIdle) (hstart : reader.decoder.budget.used = 0)
    (limit : Nat) :
    (limit < Size.largest → ∀ fragments others : List Octets,
      others.flatten = fragments.flatten →
      ((reader.withLimit Size.largest).decodeAll fragments).error? = none →
      ((reader.withLimit Size.largest).decodeAll fragments).reader.isPartial = false →
        let whole := (reader.withLimit Size.largest).decodeAll fragments
        let received := (reader.withLimit limit).decodeAll others
        received.error? = none ∧ received.reader.isPartial = false ∧
          IsLongestWithin totalLength limit whole.headers received.headers ∧
          (received.reader.endBlock.1 = true ↔ received.headers ≠ whole.headers) ∧
          received.reader.endBlock.2.decoder.budget.used = 0) ∧
      ∀ operations : List Operation, .endBlock ∉ operations →
        min (totalLength ((reader.withLimit limit).allHandedOver operations)) Size.largest ≤
          limit := by
  refine ⟨?_, fun operations hinside ↦ totalLength_allHandedOver_le hinside⟩
  intro hlimited fragments others hsame herror hpartial whole received
  have hwhole := isReceivedAs_withLimit hidle Size.largest fragments
  have hreceived := isReceivedAs_withLimit hidle limit others
  rw [hsame] at hreceived
  obtain ⟨hcomplete, htruncates⟩ :=
    consume_withLimit hidle hstart hlimited ((Reception.isWhole_iff hwhole).1 ⟨herror, hpartial⟩)
  obtain ⟨hnone, hnothing⟩ := (Reception.isWhole_iff hreceived).2 hcomplete
  have hheaders := hreceived.headers_eq hcomplete.error_eq
  have hwholeHeaders := hwhole.headers_eq (hwhole.error_eq.symm.trans herror)
  have hlongest := htruncates.longest
  have hexceeded := htruncates.isExceeded_iff
  rw [← hheaders, ← hwholeHeaders] at hlongest hexceeded
  rw [← hreceived.decoder_eq] at hexceeded
  exact ⟨hnone, hnothing, hlongest, hexceeded, rfl⟩

/-- Ten octets fit, twelve more do not, and the six that follow are dropped too. -/
theorem truncation_is_exact_of_three_headers :
    let reader : Reader := .ofSettings { }
    let whole := (reader.withLimit Size.largest).decodeAll [[0x82, 0x87, 0x84]]
    let received := (reader.withLimit 12).decodeAll [[0x82], [], [0x87, 0x84]]
    let operations : List Operation := [.decode [0x82, 0x87], .setPolicy .fifo, .decode [0x80]]
    IsLongestWithin totalLength 12 whole.headers received.headers ∧
      (received.reader.endBlock.1 = true ↔ received.headers ≠ whole.headers) ∧
      min (totalLength ((reader.withLimit 12).allHandedOver operations)) Size.largest ≤ 12 := by
  intro reader whole received operations
  have hidle : reader.IsIdle := isIdle_ofSettings { }
  have hlimited : 12 < Size.largest := by decide
  have hinside : .endBlock ∉ operations := by simp [operations]
  obtain ⟨hblocks, hoperations⟩ := truncation_is_exact hidle rfl 12
  have htruncated := hblocks hlimited [[0x82, 0x87, 0x84]] [[0x82], [], [0x87, 0x84]] rfl
    (by decide +kernel) (by decide +kernel)
  exact ⟨htruncated.2.2.1, htruncated.2.2.2.1, hoperations operations hinside⟩

end HeaderCompression.Block.Reader
