import HeaderCompression.Proofs.Decoder.Steps
import HeaderCompression.Proofs.Table.Refinement

/-!
# Reachable decoders

Whatever octets a decoder meets and whatever is asked of it between blocks, its table stays well
formed, its budget stays within the largest size, and the element that comes next has octets.
-/

namespace HeaderCompression

open Octets Table Wire

theorem Budget.used_spend_le (budget : Budget) (length : Nat) :
    (budget.spend length).used ≤ Size.largest :=
  Nat.min_le_right _ _

theorem Budget.used_exhaust_le (budget : Budget) : budget.exhaust.used ≤ Size.largest :=
  Nat.min_le_right _ _

namespace Decoder

structure Valid (decoder : Decoder) : Prop where
  table : decoder.table.WellFormed
  budget : decoder.budget.used ≤ Size.largest
  stage : decoder.stage.IsProductive

variable {decoder next : Decoder} {header? : Option Header}

/-- Everything that an element may lead to is valid. -/
def Transition.Valid (transition : Transition) : Prop :=
  ∀ next header?, transition = .ok (next, header?) → next.Valid

theorem Transition.valid_ok (hnext : next.Valid) : Transition.Valid (.ok (next, header?)) := by
  intro other otherHeader? hother
  obtain ⟨rfl, rfl⟩ := Prod.mk.inj (Except.ok.inj hother)
  exact hnext

theorem Transition.valid_error (error : DecodingError) : Transition.Valid (.error error) := by
  intro other otherHeader? hother
  cases hother

theorem Transition.valid_bind {α : Type} {result : Except DecodingError α}
    {consequence : α → Transition}
    (hconsequence : ∀ value, result = .ok value → Transition.Valid (consequence value)) :
    Transition.Valid (result >>= consequence) := by
  cases hresult : result with
  | error error => exact valid_error error
  | ok value => exact hconsequence value hresult

namespace Valid

/-! ## One rule for each element -/

theorem withStage (hvalid : decoder.Valid) {stage : Stage} (hstage : stage.IsProductive) :
    Valid { decoder with stage } :=
  { hvalid with stage := hstage }

theorem enter (hvalid : decoder.Valid) {stage : Stage} (hstage : stage.IsProductive) :
    Transition.Valid (decoder.enter stage) :=
  Transition.valid_ok (hvalid.withStage hstage)

theorem deliver (hvalid : decoder.Valid) (header : Header) : (decoder.deliver header).1.Valid := by
  unfold Decoder.deliver
  split
  · exact ⟨hvalid.table, Budget.used_spend_le _ _, trivial⟩
  · exact ⟨hvalid.table, Budget.used_exhaust_le _, trivial⟩

theorem deliverLiteral (hvalid : decoder.Valid) (indexing : Indexing) (field : Field) :
    (decoder.deliverLiteral indexing field).1.Valid := by
  have hdelivered := hvalid.deliver { field, sensitive := indexing = .never }
  unfold Decoder.deliverLiteral
  cases indexing with
  | incremental => exact { hdelivered with table := hdelivered.table.add field }
  | without => exact hdelivered
  | never => exact hdelivered

theorem passesOver (hvalid : decoder.Valid) (indexing : Indexing) (length : Nat) :
    (decoder.passesOver indexing length).2.Valid := by
  have hexhausted : Valid { decoder with budget := decoder.budget.exhaust } :=
    { hvalid with budget := Budget.used_exhaust_le _ }
  unfold Decoder.passesOver
  split
  · exact hvalid
  · cases indexing with
    | without => exact hexhausted
    | never => exact hexhausted
    | incremental =>
      dsimp only
      split
      · exact { hexhausted with table := hvalid.table.clear }
      · exact hexhausted

theorem skipValue (hvalid : decoder.Valid) (length : Nat) :
    Transition.Valid (decoder.skipValue length) := by
  unfold Decoder.skipValue
  refine hvalid.enter ?_
  split
  · exact trivial
  · rename_i hlength
    exact Nat.pos_of_ne_zero hlength

theorem resize (hvalid : decoder.Valid) {capacity : Nat}
    (hresize : decoder.resize capacity = .ok next) : next.Valid := by
  unfold Decoder.resize at hresize
  split at hresize
  · cases hresize
  · obtain rfl := Except.ok.inj hresize
    exact { hvalid with table := hvalid.table.setCapacity capacity }

theorem indexKnown (hvalid : decoder.Valid) (opening : Opening) (value : Nat) :
    Transition.Valid (decoder.indexKnown opening value) := by
  unfold Decoder.indexKnown
  cases opening with
  | indexed => exact Transition.valid_bind fun field _ ↦ Transition.valid_ok (hvalid.deliver _)
  | sizeUpdate =>
    exact Transition.valid_bind fun resized hresize ↦ (hvalid.resize hresize).enter trivial
  | literal indexing =>
    dsimp only
    split
    · exact hvalid.enter trivial
    · exact Transition.valid_bind fun field _ ↦ hvalid.enter trivial

theorem openingKnown (hvalid : decoder.Valid) (octet : UInt8) :
    Transition.Valid (decoder.openingKnown octet) := by
  unfold Decoder.openingKnown
  dsimp only
  split
  · exact hvalid.indexKnown _ _
  · exact hvalid.enter trivial

theorem nameLengthKnown (hvalid : decoder.Valid) (indexing : Indexing) (huffman : Bool)
    (length : Nat) : Transition.Valid (decoder.nameLengthKnown indexing huffman length) := by
  unfold Decoder.nameLengthKnown
  split
  · exact Transition.valid_error .emptyName
  · rename_i hlength
    have hpos := Nat.pos_of_ne_zero hlength
    refine (hvalid.passesOver indexing _).enter ?_
    split
    · exact hpos
    · exact hpos

theorem nameKnown (hvalid : decoder.Valid) (indexing : Indexing) (name : Octets) :
    Transition.Valid (decoder.nameKnown indexing name) := by
  unfold Decoder.nameKnown
  split
  · exact Transition.valid_error .emptyName
  · exact hvalid.enter trivial

theorem valueLengthKnown (hvalid : decoder.Valid) (indexing : Indexing) (name? : Option Octets)
    (huffman : Bool) (length : Nat) :
    Transition.Valid (decoder.valueLengthKnown indexing name? huffman length) := by
  unfold Decoder.valueLengthKnown
  cases name? with
  | none => exact hvalid.skipValue length
  | some name =>
    have hdecided := hvalid.passesOver indexing
      (name.length + StringLiteral.minimumDecodedLength huffman length)
    dsimp only
    split
    · exact hdecided.skipValue length
    · split
      · exact Transition.valid_ok (hdecided.deliverLiteral indexing _)
      · rename_i hlength
        exact hdecided.enter (Nat.pos_of_ne_zero hlength)

/-! ## Steps -/

theorem of_stepWith {α : Type} {unread rest : Octets} {reader : Octets → Reading α}
    {consequence : α → Transition} (hconsequence : ∀ element, (consequence element).Valid)
    (hstep : decoder.stepWith unread reader consequence = .advanced next header? rest) :
    next.Valid := by
  obtain ⟨element, -, hnext⟩ := exists_of_stepWith_advanced hstep
  exact hconsequence element next header? hnext

theorem step_advanced (hvalid : decoder.Valid) {unread rest : Octets}
    (hstep : decoder.step unread = .advanced next header? rest) : next.Valid := by
  unfold step at hstep
  split at hstep
  · exact of_stepWith hvalid.openingKnown hstep
  · exact of_stepWith (fun _ ↦ hvalid.indexKnown _ _) hstep
  · refine of_stepWith (fun element ↦ ?_) hstep
    cases element with
    | toBeContinued huffman => exact hvalid.enter trivial
    | known huffman length => exact hvalid.nameLengthKnown _ huffman length
  · exact of_stepWith (hvalid.nameKnown _) hstep
  · unfold stepSkipping at hstep
    split at hstep
    · cases hstep
    · obtain ⟨rfl, -, -⟩ := Step.advanced.inj hstep
      exact hvalid.withStage trivial
  · refine of_stepWith (fun element ↦ ?_) hstep
    cases element with
    | toBeContinued huffman => exact hvalid.enter trivial
    | known huffman length => exact hvalid.valueLengthKnown _ _ huffman length
  · exact of_stepWith (fun value ↦ Transition.valid_ok (hvalid.deliverLiteral _ ⟨_, value⟩)) hstep
  · unfold stepSkipping at hstep
    split at hstep
    · cases hstep
    · obtain ⟨rfl, -, -⟩ := Step.advanced.inj hstep
      exact hvalid.withStage trivial

theorem of_stepSkipping_waiting (hvalid : decoder.Valid) {unread rest : Octets} {remaining : Nat}
    {more : Nat → Stage} {done : Stage}
    (hstep : decoder.stepSkipping unread remaining more done = .waiting next rest)
    (hmore : ∀ fewer, 0 < fewer → (more fewer).IsProductive) : next.Valid := by
  unfold stepSkipping at hstep
  split at hstep
  · rename_i hlength
    obtain ⟨rfl, -⟩ := Step.waiting.inj hstep
    exact hvalid.withStage (hmore _ (Nat.sub_pos_of_lt hlength))
  · cases hstep

theorem of_stepWith_waiting {α : Type} (hvalid : decoder.Valid) {unread rest : Octets}
    {reader : Octets → Reading α} {consequence : α → Transition}
    (hstep : decoder.stepWith unread reader consequence = .waiting next rest) : next.Valid := by
  unfold stepWith at hstep
  split at hstep
  · split at hstep <;> cases hstep
  · obtain ⟨rfl, -⟩ := Step.waiting.inj hstep
    exact hvalid
  · cases hstep

theorem step_waiting (hvalid : decoder.Valid) {unread rest : Octets}
    (hstep : decoder.step unread = .waiting next rest) : next.Valid := by
  unfold step at hstep
  split at hstep
  · exact hvalid.of_stepWith_waiting hstep
  · exact hvalid.of_stepWith_waiting hstep
  · exact hvalid.of_stepWith_waiting hstep
  · exact hvalid.of_stepWith_waiting hstep
  · exact hvalid.of_stepSkipping_waiting hstep fun _ hfewer ↦ hfewer
  · exact hvalid.of_stepWith_waiting hstep
  · exact hvalid.of_stepWith_waiting hstep
  · exact hvalid.of_stepSkipping_waiting hstep fun _ hfewer ↦ hfewer

/-! ## Runs and adjustments -/

theorem run (hvalid : decoder.Valid) (steps : Nat) (unread : Octets) :
    (decoder.run steps unread).decoder.Valid := by
  fun_induction Decoder.run steps decoder unread with
  | case1 decoder unread => exact hvalid
  | case2 steps decoder => exact hvalid
  | case3 steps decoder unread hne next header? rest hstep hrest =>
    exact hrest (hvalid.step_advanced hstep)
  | case4 steps decoder unread hne next rest hstep => exact hvalid.step_waiting hstep
  | case5 steps decoder unread hne error rest hstep => exact hvalid

theorem ofSettings (settings : DecoderSettings) : (Decoder.ofSettings settings).Valid :=
  ⟨DynamicTable.wellFormed_ofCapacity settings.tableSizeLimit .fifo, Nat.zero_le _, trivial⟩

theorem endBlock (hvalid : decoder.Valid) : decoder.endBlock.2.Valid :=
  ⟨hvalid.table, Nat.zero_le _, trivial⟩

theorem setTableSizeLimit (hvalid : decoder.Valid) (limit : Nat) :
    (decoder.setTableSizeLimit limit).Valid := by
  have htable : (decoder.setTableSizeLimit limit).table.WellFormed := by
    unfold Decoder.setTableSizeLimit
    dsimp only
    split
    · exact hvalid.table.setCapacity limit
    · exact hvalid.table
  exact ⟨htable, hvalid.budget, hvalid.stage⟩

theorem setPolicy (hvalid : decoder.Valid) (policy : EvictionPolicy) :
    (decoder.setPolicy policy).Valid :=
  { hvalid with table := hvalid.table.setPolicy policy }

end Valid

/-! ## Reachable decoders -/

/-- The decoders that an application can come to hold. -/
inductive Reachable : Decoder → Prop
  | ofSettings (settings : DecoderSettings) : Reachable (.ofSettings settings)
  | decode {decoder : Decoder} (queue : Queue) (hdecoder : Reachable decoder) :
    Reachable (decoder.decode queue).1.decoder
  | endBlock {decoder : Decoder} (hdecoder : Reachable decoder) : Reachable decoder.endBlock.2
  | resize {decoder resized : Decoder} {capacity : Nat} (hdecoder : Reachable decoder)
    (hresize : decoder.resize capacity = .ok resized) : Reachable resized
  | setTableSizeLimit {decoder : Decoder} (limit : Nat) (hdecoder : Reachable decoder) :
    Reachable (decoder.setTableSizeLimit limit)
  | setPolicy {decoder : Decoder} (policy : EvictionPolicy) (hdecoder : Reachable decoder) :
    Reachable (decoder.setPolicy policy)

theorem Reachable.valid (hreachable : decoder.Reachable) : decoder.Valid := by
  induction hreachable with
  | ofSettings settings => exact Valid.ofSettings settings
  | decode queue _ hvalid => exact hvalid.run _ _
  | endBlock _ hvalid => exact hvalid.endBlock
  | resize _ hresize hvalid => exact hvalid.resize hresize
  | setTableSizeLimit limit _ hvalid => exact hvalid.setTableSizeLimit limit
  | setPolicy policy _ hvalid => exact hvalid.setPolicy policy

end Decoder

end HeaderCompression
