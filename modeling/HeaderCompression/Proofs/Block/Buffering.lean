import HeaderCompression.Proofs.Block.TableInvariant
import HeaderCompression.Proofs.Decoder.Budgets
import HeaderCompression.Proofs.Decoder.Truncation
import HeaderCompression.Proofs.Decoder.Waiting
import Mathlib.Data.List.MinMax
import Mathlib.Order.Nat

/-!
# How much a reader holds back

A peer may announce a string of any length and send it slowly. The reader holds the octets of a
string back only if the string may still be delivered or enter the table, so its length is bounded
by the limits that the application has set: no codeword is longer than 30 bits, and so a string that
is coded in more octets than the limits admit would be too long when it is decoded.
-/

namespace HeaderCompression

open Octets Table Wire

/-! ## Payloads -/

/-- A payload that may stand for a text within a bound is not much longer than the bound. -/
theorem Wire.StringLiteral.eight_mul_length_lt {huffman : Bool} {length bound : Nat}
    (hlongest : length ≤ longestPayload)
    (hbound : minimumDecodedLength huffman length ≤ bound ∨ Size.largest ≤ bound) :
    8 * length < 30 * (bound + 1) := by
  have hpayload : longestPayload = 2147483774 := rfl
  have hlargest : Size.largest = 18446744073709551615 := rfl
  rcases hbound with hbound | hbound
  · cases huffman with
    | false =>
      have hlength : length ≤ bound := hbound
      omega
    | true =>
      rw [minimumDecodedLength_true_eq (by omega)] at hbound
      omega
  · omega

namespace Decoder

variable {decoder next : Decoder} {completed : Decoder × Option Header}

theorem length_rest_consume (hvalid : decoder.Valid) (unread : Octets)
    (herror : (decoder.consume unread).error? = none) :
    (decoder.consume unread).rest.length ≤ 4 ∨
      (decoder.consume unread).rest.length < (decoder.consume unread).decoder.stage.awaited := by
  by_cases hnil : (decoder.consume unread).rest = []
  · rw [hnil]
    exact .inl (Nat.zero_le 4)
  · cases isShortOf_consume hvalid unread herror hnil with
    | continuation hstage hstart => exact .inl hstart.length_le
    | payload hlength => exact .inr hlength

/-! ## Strings that are awaited -/

/-- Both limits are within a bound, and no string is awaited that cannot be. -/
structure Bounded (bound : Nat) (decoder : Decoder) : Prop where
  budget_le : decoder.budget.limit ≤ bound
  tableSizeLimit_le : decoder.tableSizeLimit ≤ bound
  awaited_lt : 8 * decoder.stage.awaited < 30 * (bound + 1)

theorem Budget.le_of_admits {budget : Budget} {length bound : Nat}
    (hadmits : budget.admits length = true) (hlimit : budget.limit ≤ bound) :
    length ≤ bound ∨ Size.largest ≤ bound := by
  have hsum : min (budget.used + length) Size.largest ≤ budget.limit := of_decide_eq_true hadmits
  omega

namespace Bounded

variable {bound : Nat}

/-- A string is kept only if the budget admits it or it fits in the table. -/
theorem le_of_passesOver (hbounded : decoder.Bounded bound) (hkept : decoder.TableKept)
    {indexing : Indexing} {length : Nat} {decided : Decoder}
    (hdecided : decoder.passesOver indexing length = (false, decided)) :
    length ≤ bound ∨ Size.largest ≤ bound := by
  have hkeeps : ¬(decoder.passesOver indexing length).1 = true := by
    rw [hdecided]
    exact Bool.false_ne_true
  rw [passesOver_eq_true_iff] at hkeeps
  cases hadmits : decoder.budget.admits length with
  | true => exact Budget.le_of_admits hadmits hbounded.budget_le
  | false =>
    have hfits : ¬decoder.table.capacity < length + Field.overhead :=
      fun hcapacity ↦ hkeeps ⟨hadmits, fun _ ↦ hcapacity⟩
    have hlimit := Nat.le_trans hkept.capacity_le hbounded.tableSizeLimit_le
    exact .inl (by omega)

theorem of_sameLimits (hbounded : decoder.Bounded bound) (hlimits : decoder.SameLimits next)
    (hawaited : 8 * next.stage.awaited < 30 * (bound + 1)) : next.Bounded bound where
  budget_le := Nat.le_trans (Nat.le_of_eq hlimits.budget) hbounded.budget_le
  tableSizeLimit_le := Nat.le_trans (Nat.le_of_eq hlimits.tableSize) hbounded.tableSizeLimit_le
  awaited_lt := hawaited

theorem move (hbounded : decoder.Bounded bound) (hkept : decoder.TableKept)
    (hmove : decoder.Move completed) : completed.1.Bounded bound := by
  refine hbounded.of_sameLimits hmove.sameLimits ?_
  have hnothing : 8 * 0 < 30 * (bound + 1) := by omega
  cases hmove with
  | indexed hfield =>
    rw [stage_deliver]
    exact hnothing
  | valueEmpty hstage hdecided =>
    rw [stage_deliverLiteral]
    exact hnothing
  | valueRead hstage value =>
    rw [stage_deliverLiteral]
    exact hnothing
  | nameKept hdecided hpos hlongest =>
    exact StringLiteral.eight_mul_length_lt hlongest (hbounded.le_of_passesOver hkept hdecided)
  | valueKept hstage hdecided hpos hlongest =>
    -- The name counts too, but the bound is on the value alone.
    have hbound := (hbounded.le_of_passesOver hkept hdecided).imp_left
      fun hsum ↦ Nat.le_trans (Nat.le_add_left _ _) hsum
    exact StringLiteral.eight_mul_length_lt hlongest hbound
  | _ => exact hnothing

theorem waits (hbounded : decoder.Bounded bound) (hwaits : decoder.Waits next) :
    next.Bounded bound := by
  have hnothing : 8 * 0 < 30 * (bound + 1) := by omega
  cases hwaits with
  | unchanged => exact hbounded
  | skippedName hstage hpos hfewer => exact hbounded.of_sameLimits ⟨rfl, rfl⟩ hnothing
  | skippedValue hstage hpos hfewer => exact hbounded.of_sameLimits ⟨rfl, rfl⟩ hnothing

theorem run (hbounded : decoder.Bounded bound) (hkept : decoder.TableKept)
    (hvalid : decoder.Valid) (steps : Nat) (unread : Octets) :
    (decoder.run steps unread).decoder.Bounded bound := by
  have hboth : (decoder.run steps unread).decoder.TableKept ∧
      (decoder.run steps unread).decoder.Bounded bound :=
    run_induction (motive := fun decoder ↦ decoder.TableKept ∧ decoder.Bounded bound)
      (fun _ _ hvalid hboth hmove ↦ ⟨hboth.1.move hvalid hmove, hboth.2.move hboth.1 hmove⟩)
      (fun _ _ hboth hwaits ↦ ⟨hboth.1.waits hwaits, hboth.2.waits hwaits⟩) hvalid
      ⟨hkept, hbounded⟩ steps unread
  exact hboth.2

end Bounded

end Decoder

/-! ## Histories -/

namespace Block.Reader

variable {reader : Reader}

theorem error_eq_none_of_decode_eq_ok (hmarked : reader.input.IsMarked) {fragment : Octets}
    {headers : List Header} (hdecode : (reader.decode fragment).1 = .ok headers) :
    (reader.outcome fragment).error? = none := by
  rw [decode_eq hmarked] at hdecode
  cases herror : (reader.outcome fragment).error? with
  | none => rfl
  | some error =>
    rw [herror] at hdecode
    cases hdecode

/-- The limit that an operation puts in force. -/
def Operation.limit? : Operation → Option Nat
  | .setTableSizeLimit limit => some limit
  | _ => none

/-- All limits that a history puts in force. -/
def limits (settings : DecoderSettings) (operations : List Operation) : List Nat :=
  settings.listSizeLimit :: settings.tableSizeLimit :: operations.filterMap Operation.limit?

def largestLimit (settings : DecoderSettings) (operations : List Operation) : Nat :=
  (limits settings operations).foldr max 0

theorem le_largestLimit {settings : DecoderSettings} {operations : List Operation} {limit : Nat}
    (hlimit : limit ∈ limits settings operations) : limit ≤ largestLimit settings operations :=
  List.le_max_of_le hlimit (Nat.le_refl limit)

theorem bounded_ofSettings (settings : DecoderSettings) (operations : List Operation) :
    (ofSettings settings).decoder.Bounded (largestLimit settings operations) where
  budget_le := le_largestLimit List.mem_cons_self
  tableSizeLimit_le := le_largestLimit (List.mem_cons_of_mem _ List.mem_cons_self)
  awaited_lt := by
    have hnothing : 8 * 0 < 30 * (largestLimit settings operations + 1) := by omega
    exact hnothing

theorem bounded_perform {bound : Nat} (hvalid : reader.decoder.Valid)
    (hkept : reader.decoder.TableKept) (hbounded : reader.decoder.Bounded bound)
    {operation : Operation} (hlimit : ∀ limit ∈ operation.limit?, limit ≤ bound) :
    (reader.perform operation).decoder.Bounded bound := by
  have hnothing : 8 * 0 < 30 * (bound + 1) := by omega
  cases operation with
  | receive octets => exact hbounded
  | clearInput => exact hbounded
  | setPolicy policy => exact { hbounded with }
  | endBlock => exact hbounded.of_sameLimits ⟨rfl, rfl⟩ hnothing
  | decode fragment =>
    rw [perform, decoder_decode_eq_run]
    exact hbounded.run hkept hvalid _ _
  | setTableSizeLimit limit => exact { hbounded with tableSizeLimit_le := hlimit limit rfl }
  | resize capacity =>
    rw [perform]
    unfold Decoder.resize
    split
    · exact hbounded
    · exact { hbounded with }

theorem bounded_foldl_perform {bound : Nat} (hvalid : reader.decoder.Valid)
    (hkept : reader.decoder.TableKept) (hbounded : reader.decoder.Bounded bound)
    {operations : List Operation}
    (hlimits : ∀ limit ∈ operations.filterMap Operation.limit?, limit ≤ bound) :
    (operations.foldl perform reader).decoder.Bounded bound := by
  induction operations generalizing reader with
  | nil => exact hbounded
  | cons operation operations hoperations =>
    have hfirst : ∀ limit ∈ operation.limit?, limit ≤ bound := by
      intro limit hlimit
      exact hlimits limit (List.mem_filterMap.2 ⟨operation, List.mem_cons_self, hlimit⟩)
    refine hoperations (valid_perform hvalid operation) ?_ ?_ ?_
    · exact tableKept_perform hvalid hkept operation
    · exact bounded_perform hvalid hkept hbounded hfirst
    · intro limit hlimit
      obtain ⟨later, hlater, hset⟩ := List.mem_filterMap.1 hlimit
      exact hlimits limit (List.mem_filterMap.2 ⟨later, List.mem_cons_of_mem _ hlater, hset⟩)

/-- After any history, a fragment that decodes without an error leaves at most four octets, or fewer
than the limits in force so far admit at 30 bits an octet. -/
theorem buffered_le_of_history (settings : DecoderSettings) (operations : List Operation)
    (fragment : Octets) {headers : List Header}
    (hdecode : ((operations.foldl perform (ofSettings settings)).decode fragment).1 =
      .ok headers) :
    let buffered := ((operations.foldl perform (ofSettings settings)).decode fragment).2.buffered
    buffered ≤ 4 ∨ 8 * buffered < 30 * (largestLimit settings operations + 1) := by
  have hvalid : (operations.foldl perform (ofSettings settings)).decoder.Valid :=
    valid_foldl_perform (.ofSettings settings) operations
  have hkept : (operations.foldl perform (ofSettings settings)).decoder.TableKept :=
    tableKept_foldl_perform (.ofSettings settings) (.ofSettings settings) operations
  have hmarked : (operations.foldl perform (ofSettings settings)).input.IsMarked :=
    isMarked_foldl_perform Queue.isMarked_empty operations
  have hbounded : (operations.foldl perform (ofSettings settings)).decoder.Bounded
      (largestLimit settings operations) :=
    bounded_foldl_perform (.ofSettings settings) (.ofSettings settings)
      (bounded_ofSettings settings operations)
      fun limit hlimit ↦ le_largestLimit (List.mem_cons_of_mem _ (List.mem_cons_of_mem _ hlimit))
  generalize operations.foldl perform (ofSettings settings) = reader at *
  have herror : (reader.outcome fragment).error? = none :=
    error_eq_none_of_decode_eq_ok hmarked hdecode
  have hafter : (reader.outcome fragment).decoder.Bounded (largestLimit settings operations) :=
    hbounded.run hkept hvalid _ _
  have hlength : (reader.outcome fragment).rest.length ≤ 4 ∨
      (reader.outcome fragment).rest.length < (reader.outcome fragment).decoder.stage.awaited :=
    Decoder.length_rest_consume hvalid _ herror
  dsimp only
  rw [buffered, ← Queue.length_unread, unread_decode hvalid hmarked]
  have hawaited := hafter.awaited_lt
  exact hlength.imp_right fun hlt ↦ by omega

/-- Six of the ten octets of a name are held back after a smaller table was asked for. -/
theorem buffered_le_of_history_of_cut_name :
    let settings : DecoderSettings := { listSizeLimit := 10, tableSizeLimit := 64 }
    let operations : List Operation := [.decode [0x40], .setTableSizeLimit 50]
    let decoded := (operations.foldl perform (ofSettings settings)).decode
      [0x0A, 0x61, 0x62, 0x63, 0x64, 0x65, 0x66]
    decoded.1 = .ok [] ∧
      (decoded.2.buffered ≤ 4 ∨
        8 * decoded.2.buffered < 30 * (largestLimit settings operations + 1)) :=
  ⟨rfl, buffered_le_of_history _ _ _ rfl⟩

end Block.Reader

end HeaderCompression
