import HeaderCompression.Proofs.Checked.HuffmanDecoding
import HeaderCompression.Proofs.Checked.Queue
import HeaderCompression.Proofs.Checked.Rules

/-!
# Checked decoding

Elements are read from a queue, and a step applies the rule of the element that it has read. A run
takes steps as long as there are octets, which it does no more often than there are octets. As long
as a decoder is ready and the octets that are left are few enough, no operation of a run fails, and
it decodes what the decoder decodes from the unread octets.
-/

namespace HeaderCompression.Checked.Decoding

open Octets Wire

/-! ## Elements -/

def readFirst (queue : Queue) : Option (Except DecodingError (Option UInt8) × Queue) := do
  let read ← Input.readOctet queue
  return (.ok read.1, read.2)

def readLength (part : LengthPart) (queue : Queue) :
    Option (Except DecodingError (Option LengthReading) × Queue) :=
  match part with
  | .opening => do
    let read ← Input.readOctet queue
    return (.ok (read.1.map LengthReading.ofOctet), read.2)
  | .continuation huffman => do
    match ← Input.readContinuation queue with
    | (.ok (some rest), queue) =>
      let length ← sum Size.largest (Bits.ones StringLiteral.lengthWidth) rest
      return (.ok (some (.known huffman length)), queue)
    | (.ok none, queue) => return (.ok none, queue)
    | (.error error, queue) => return (.error error, queue)

def textOf (huffman : Bool) (payload : Octets) : Option (Except DecodingError Octets) :=
  if huffman then HuffmanDecoding.decode payload else some (.ok payload)

def readPayload (huffman : Bool) (length : Nat) (queue : Queue) :
    Option (Except DecodingError (Option Octets) × Queue) := do
  match ← Input.readOctets queue length with
  | (none, queue) => return (.ok none, queue)
  | (some payload, queue) =>
    match ← textOf huffman payload with
    | .ok text => return (.ok (some text), queue)
    | .error error => return (.error error, queue)

/-! ## Steps -/

/-- The outcome of one step, and the queue after it. -/
inductive Step where
  | advanced (decoder : Decoder) (header? : Option Header) (queue : Queue)
  | waiting (decoder : Decoder) (queue : Queue)
  | failed (error : DecodingError) (queue : Queue)

/-- Read an element and apply its rule. -/
def stepWith {α : Type} (decoder : Decoder) (queue : Queue)
    (reader : Queue → Option (Except DecodingError (Option α) × Queue))
    (rule : α → Option Decoder.Transition) : Option Step := do
  match ← reader queue with
  | (.ok (some element), queue) =>
    match ← rule element with
    | .ok (decoder, header?) => return .advanced decoder header? queue
    | .error error => return .failed error queue
  | (.ok none, queue) => return .waiting decoder queue
  | (.error error, queue) => return .failed error queue

def stepSkipping (decoder : Decoder) (queue : Queue) (remaining : Nat)
    (more : (remaining : Nat) → Stage) (done : Stage) : Option Step := do
  let skipped ← Input.skip queue remaining
  let left ← difference remaining skipped.1
  return if 0 < left then .waiting { decoder with stage := more left } skipped.2
    else .advanced { decoder with stage := done } none skipped.2

def step (decoder : Decoder) (queue : Queue) : Option Step :=
  match decoder.stage with
  | .boundary => stepWith decoder queue readFirst (Rules.openingKnown decoder)
  | .index opening =>
    stepWith decoder queue Input.readContinuation fun rest ↦ do
      let value ← sum Size.largest (Bits.ones opening.width) rest
      Rules.indexKnown decoder opening value
  | .nameLength indexing part =>
    stepWith decoder queue (readLength part) fun
      | .toBeContinued huffman =>
        some (decoder.enter (.nameLength indexing (.continuation huffman)))
      | .known huffman length => Rules.nameLengthKnown decoder indexing huffman length
  | .name indexing huffman length =>
    stepWith decoder queue (readPayload huffman length) fun name ↦
      some (decoder.nameKnown indexing name)
  | .skippedName indexing remaining =>
    stepSkipping decoder queue remaining (.skippedName indexing)
      (.valueLength indexing none .opening)
  | .valueLength indexing name? part =>
    stepWith decoder queue (readLength part) fun
      | .toBeContinued huffman =>
        some (decoder.enter (.valueLength indexing name? (.continuation huffman)))
      | .known huffman length => Rules.valueLengthKnown decoder indexing name? huffman length
  | .value indexing name huffman length =>
    stepWith decoder queue (readPayload huffman length) fun value ↦ do
      let delivered ← Rules.deliverLiteral decoder indexing ⟨name, value⟩
      return .ok delivered
  | .skippedValue remaining => stepSkipping decoder queue remaining .skippedValue .boundary

/-! ## Runs -/

/-- Take steps while there are octets. After `rounds` of them there is no result. -/
def run : (rounds : Nat) → Decoder → Queue → Option (Decoder.Outcome × Queue)
  | 0, _, _ => none
  | rounds + 1, decoder, queue => do
    let arrived ← Input.available queue
    if arrived = 0 then return ({ decoder, headers := [], rest := [] }, queue)
    else
      match ← step decoder queue with
      | .advanced decoder header? queue =>
        let finished ← run rounds decoder queue
        return (finished.1.after header?, finished.2)
      | .waiting decoder queue => return ({ decoder, headers := [], rest := queue.unread }, queue)
      | .failed error queue =>
        return ({ decoder, headers := [], rest := queue.unread, error? := some error }, queue)

def decode (decoder : Decoder) (queue : Queue) : Option (Decoder.Outcome × Queue) := do
  let arrived ← Input.available queue
  let finished ← run (arrived + 1) decoder queue
  return (finished.1, finished.2.setMark)

/-! ## Elements that are read -/

/-- What is read from a queue is what is read from its unread octets, and the queue moves on. -/
inductive Agrees {α : Type} (queue : Queue) :
    Reading α → Except DecodingError (Option α) × Queue → Prop
  | complete {value : α} {rest : Octets} {after : Queue} (hleaves : Input.Leaves queue rest after) :
    Agrees queue (.complete value rest) (.ok (some value), after)
  | incomplete {after : Queue} (hleaves : Input.Leaves queue queue.unread after) :
    Agrees queue .incomplete (.ok none, after)
  | failed {error : DecodingError} {rest : Octets} {after : Queue}
    (hleaves : Input.Leaves queue rest after) :
    Agrees queue (.failed error rest) (.error error, after)

/-- A reader of queues fails in no operation and agrees with a reader of octets. -/
def Follows {α : Type} (checked : Queue → Option (Except DecodingError (Option α) × Queue))
    (reader : Octets → Reading α) : Prop :=
  ∀ queue, Input.InOrder queue →
    ∃ result, checked queue = some result ∧ Agrees queue (reader queue.unread) result

theorem exists_readOctet {queue : Queue} (horder : Input.InOrder queue) :
    ∃ octet? after, Input.readOctet queue = some (octet?, after) ∧
      Agrees queue (first queue.unread) (.ok octet?, after) := by
  cases hunread : queue.unread with
  | nil =>
    have hagrees : Agrees queue (.incomplete : Reading UInt8) (.ok none, queue) :=
      .incomplete (Input.leaves_unread horder)
    exact ⟨none, queue, Input.readOctet_nil hunread, hagrees⟩
  | cons octet rest =>
    have hsuffix : rest <:+ queue.unread := by
      rw [hunread]
      exact List.suffix_cons octet rest
    exact ⟨some octet, queue.leave rest, Input.readOctet_cons horder hunread,
      .complete (Input.leaves_leave hsuffix)⟩

theorem follows_readFirst : Follows readFirst first := by
  intro queue horder
  obtain ⟨octet?, after, hread, hagrees⟩ := exists_readOctet horder
  refine ⟨_, ?_, hagrees⟩
  rw [readFirst, bind_of_eq_some hread]
  rfl

theorem follows_readContinuation :
    Follows Input.readContinuation PrefixedInteger.readContinuation := by
  intro queue horder
  refine ⟨_, Input.readContinuation_eq horder, ?_⟩
  unfold Queue.read
  cases hread : PrefixedInteger.readContinuation queue.unread with
  | complete value rest =>
    have hsuffix := PrefixedInteger.prefixwise_readContinuation.suffix (.ok value) hread
    exact .complete ⟨hsuffix, rfl⟩
  | incomplete =>
    exact .incomplete ⟨List.suffix_refl _, by rw [Input.leave_unread horder]; rfl⟩
  | failed error rest =>
    have hsuffix := PrefixedInteger.prefixwise_readContinuation.suffix (.error error) hread
    exact .failed ⟨hsuffix, rfl⟩

theorem follows_readLength (part : LengthPart) : Follows (readLength part) part.read := by
  intro queue horder
  cases part with
  | opening =>
    obtain ⟨octet?, after, hread, hagrees⟩ := exists_readOctet horder
    refine ⟨(.ok (octet?.map LengthReading.ofOctet), after), ?_, ?_⟩
    · rw [readLength, bind_of_eq_some hread]
      rfl
    · rw [LengthPart.read]
      generalize first queue.unread = reading at hagrees
      cases hagrees with
      | complete hleaves => exact .complete hleaves
      | incomplete hleaves => exact .incomplete hleaves
  | continuation huffman =>
    obtain ⟨result, hread, hagrees⟩ := follows_readContinuation queue horder
    rw [readLength, bind_of_eq_some hread, LengthPart.read]
    cases hreading : PrefixedInteger.readContinuation queue.unread with
    | incomplete =>
      rw [hreading] at hagrees
      cases hagrees with
      | incomplete hleaves => exact ⟨_, rfl, .incomplete hleaves⟩
    | failed error rest =>
      rw [hreading] at hagrees
      cases hagrees with
      | failed hleaves => exact ⟨_, rfl, .failed hleaves⟩
    | complete value rest =>
      have hlargest := largest_eq
      have hvalues : PrefixedInteger.continuationValues = 2147483648 := rfl
      have hones : Bits.ones StringLiteral.lengthWidth = 127 := rfl
      have hvalue := PrefixedInteger.readContinuation_lt hreading
      rw [hreading] at hagrees
      cases hagrees with
      | complete hleaves =>
        dsimp only
        rw [bind_of_eq_some (sum_of_le (by omega))]
        exact ⟨_, rfl, .complete hleaves⟩

theorem textOf_eq (huffman : Bool) {payload : Octets} (hpayload : payload.length < Bits.values 60) :
    textOf huffman payload = some (StringLiteral.textOf huffman payload) := by
  have hlargest := largest_eq
  have hsixty := values_sixty
  cases huffman with
  | false => rfl
  | true => exact HuffmanDecoding.decode_eq (by omega)

theorem follows_readPayload (huffman : Bool) (length : Nat) :
    Follows (readPayload huffman length) (StringLiteral.readPayload huffman length) := by
  intro queue horder
  unfold readPayload
  by_cases hshort : queue.unread.length < length
  · rw [bind_of_eq_some (Input.readOctets_of_lt horder hshort),
      StringLiteral.readPayload_of_length_lt hshort]
    exact ⟨_, rfl, .incomplete (Input.leaves_unread horder)⟩
  · have hlength := Nat.le_of_not_lt hshort
    have htake : (queue.unread.take length).length < Bits.values 60 :=
      Nat.lt_of_le_of_lt (List.length_take_le' _ _) horder.length_unread_lt
    have hleaves : Input.Leaves queue (queue.unread.drop length)
        (queue.leave (queue.unread.drop length)) :=
      Input.leaves_leave (List.drop_suffix length queue.unread)
    rw [bind_of_eq_some (Input.readOctets_of_le horder hlength),
      StringLiteral.readPayload_of_length_le hlength]
    dsimp only
    rw [bind_of_eq_some (textOf_eq huffman htake)]
    cases StringLiteral.textOf huffman (queue.unread.take length) with
    | ok text => exact ⟨_, rfl, .complete hleaves⟩
    | error error => exact ⟨_, rfl, .failed hleaves⟩

/-! ## Steps that are taken -/

/-- A step on a queue is a step on its unread octets, and the queue moves on. -/
inductive StepAgrees (queue : Queue) : Decoder.Step → Step → Prop
  | advanced {decoder : Decoder} {header? : Option Header} {rest : Octets} {after : Queue}
    (hleaves : Input.Leaves queue rest after) :
    StepAgrees queue (.advanced decoder header? rest) (.advanced decoder header? after)
  | waiting {decoder : Decoder} {rest : Octets} {after : Queue}
    (hleaves : Input.Leaves queue rest after) :
    StepAgrees queue (.waiting decoder rest) (.waiting decoder after)
  | failed {error : DecodingError} {rest : Octets} {after : Queue}
    (hleaves : Input.Leaves queue rest after) :
    StepAgrees queue (.failed error rest) (.failed error after)

variable {decoder : Decoder} {queue : Queue}

theorem exists_stepWith {α : Type} (horder : Input.InOrder queue)
    {checked : Queue → Option (Except DecodingError (Option α) × Queue)}
    {reader : Octets → Reading α} (hreader : Follows checked reader)
    {rule : α → Option Decoder.Transition} {consequence : α → Decoder.Transition}
    (hrule : ∀ element rest, reader queue.unread = .complete element rest →
      rule element = some (consequence element)) :
    ∃ result, stepWith decoder queue checked rule = some result ∧
      StepAgrees queue (decoder.stepWith queue.unread reader consequence) result := by
  obtain ⟨result, hresult, hagrees⟩ := hreader queue horder
  rw [stepWith, bind_of_eq_some hresult]
  unfold Decoder.stepWith
  cases hreading : reader queue.unread with
  | complete element rest =>
    rw [hreading] at hagrees
    cases hagrees with
    | complete hleaves =>
      dsimp only
      rw [bind_of_eq_some (hrule element rest hreading)]
      cases consequence element with
      | ok completed => exact ⟨_, rfl, .advanced hleaves⟩
      | error error => exact ⟨_, rfl, .failed hleaves⟩
  | incomplete =>
    rw [hreading] at hagrees
    cases hagrees with
    | incomplete hleaves => exact ⟨_, rfl, .waiting hleaves⟩
  | failed error rest =>
    rw [hreading] at hagrees
    cases hagrees with
    | failed hleaves => exact ⟨_, rfl, .failed hleaves⟩

theorem exists_stepSkipping (horder : Input.InOrder queue) (remaining : Nat) (more : Nat → Stage)
    (done : Stage) :
    ∃ result, stepSkipping decoder queue remaining more done = some result ∧
      StepAgrees queue (decoder.stepSkipping queue.unread remaining more done) result := by
  have hskipped : min remaining queue.unread.length ≤ remaining := Nat.min_le_left _ _
  have hleaves : Input.Leaves queue (queue.unread.drop remaining)
      (queue.leave (queue.unread.drop remaining)) :=
    Input.leaves_leave (List.drop_suffix remaining queue.unread)
  rw [stepSkipping, bind_of_eq_some (Input.skip_eq horder remaining),
    bind_of_eq_some (difference_of_le hskipped)]
  unfold Decoder.stepSkipping
  by_cases hfew : queue.unread.length < remaining
  · rw [List.drop_eq_nil_of_le (Nat.le_of_lt hfew)] at hleaves ⊢
    rw [if_pos hfew, Nat.min_eq_right (Nat.le_of_lt hfew), if_pos (Nat.sub_pos_of_lt hfew)]
    exact ⟨_, rfl, .waiting hleaves⟩
  · rw [if_neg hfew, Nat.min_eq_left (Nat.le_of_not_lt hfew), Nat.sub_self,
      if_neg (Nat.lt_irrefl 0)]
    exact ⟨_, rfl, .advanced hleaves⟩

/-- The literal that a payload completes is counted by a word. -/
theorem size_le_of_readPayload {name value rest : Octets} {huffman : Bool} {length : Nat}
    (horder : Input.InOrder queue) (hname : name.IsShort)
    (hread : StringLiteral.readPayload huffman length queue.unread = .complete value rest) :
    Field.size ⟨name, value⟩ ≤ Size.largest := by
  have hlargest := largest_eq
  have hhalf := values_half
  have hsixty := values_sixty
  have hoverhead : Field.overhead = 32 := rfl
  have hunread := horder.length_unread_lt
  have hvalue := StringLiteral.length_le_of_readPayload hread
  have hlength : length ≤ queue.unread.length := by
    by_contra hlonger
    rw [StringLiteral.readPayload_of_length_lt (Nat.lt_of_not_le hlonger)] at hread
    cases hread
  unfold Octets.IsShort at hname
  unfold Field.size Field.length
  dsimp only
  omega

theorem ones_width_le (opening : Opening) : Bits.ones opening.width ≤ 127 := by
  cases opening with
  | indexed => decide
  | sizeUpdate => decide
  | literal indexing => cases indexing <;> decide

theorem exists_step (hready : decoder.Ready) (horder : Input.InOrder queue) :
    ∃ result, step decoder queue = some result ∧
      StepAgrees queue (decoder.step queue.unread) result := by
  have hshort := hready.counted.stage
  unfold step Decoder.step
  cases hstage : decoder.stage with
  | boundary =>
    exact exists_stepWith horder follows_readFirst fun octet _ _ ↦
      Rules.openingKnown_eq hready octet
  | index opening =>
    refine exists_stepWith horder follows_readContinuation fun value _ hread ↦ ?_
    have hlargest := largest_eq
    have hvalues : PrefixedInteger.continuationValues = 2147483648 := rfl
    have hvalue := PrefixedInteger.readContinuation_lt hread
    have hones := ones_width_le opening
    have hsum : Bits.ones opening.width + value ≤ Size.largest := by omega
    rw [bind_of_eq_some (sum_of_le hsum)]
    exact Rules.indexKnown_eq hready opening _
  | nameLength indexing part =>
    refine exists_stepWith horder (follows_readLength part) fun reading _ hread ↦ ?_
    cases reading with
    | toBeContinued huffman => rfl
    | known huffman length =>
      exact Rules.nameLengthKnown_eq decoder indexing huffman (LengthPart.le_longestPayload hread)
  | name indexing huffman length =>
    exact exists_stepWith horder (follows_readPayload huffman length) fun _ _ _ ↦ rfl
  | skippedName indexing remaining => exact exists_stepSkipping horder remaining _ _
  | valueLength indexing name? part =>
    refine exists_stepWith horder (follows_readLength part) fun reading _ hread ↦ ?_
    cases reading with
    | toBeContinued huffman => rfl
    | known huffman length =>
      have hname : ∀ name ∈ name?, name.IsShort := by
        rw [hstage] at hshort
        rintro name ⟨⟩
        exact hshort
      exact Rules.valueLengthKnown_eq hready indexing hname huffman
        (LengthPart.le_longestPayload hread)
  | value indexing name huffman length =>
    refine exists_stepWith horder (follows_readPayload huffman length) fun value _ hread ↦ ?_
    rw [hstage] at hshort
    have hsize := size_le_of_readPayload horder hshort hread
    rw [bind_of_eq_some (Rules.deliverLiteral_eq hready indexing hsize)]
    rfl
  | skippedValue remaining => exact exists_stepSkipping horder remaining _ _

/-! ## Runs that are finished -/

/-- Each step pays for what it inserts with the octets that it takes. -/
theorem exists_run {rounds : Nat} (hready : decoder.Ready) (horder : Input.InOrder queue)
    (hroom : decoder.table.inserted + queue.unread.length < Bits.values 60)
    (hrounds : queue.unread.length < rounds) :
    ∃ after, run rounds decoder queue = some (decoder.consume queue.unread, after) ∧
      Input.Leaves queue (decoder.consume queue.unread).rest after := by
  induction rounds generalizing decoder queue with
  | zero => exact absurd hrounds (Nat.not_lt_zero _)
  | succ rounds hrec =>
    rw [run, bind_of_eq_some (Input.available_eq horder), ← Queue.length_unread]
    by_cases hnone : queue.unread.length = 0
    · have hleaves := Input.leaves_unread horder
      rw [List.eq_nil_of_length_eq_zero hnone] at hleaves ⊢
      exact ⟨queue, rfl, hleaves⟩
    · obtain ⟨result, hresult, hagrees⟩ := exists_step hready horder
      have hne : queue.unread ≠ [] := fun hnil ↦ hnone (congrArg List.length hnil)
      rw [if_neg hnone, bind_of_eq_some hresult]
      generalize hstep : decoder.step queue.unread = outcome at hagrees
      cases hagrees with
      | @advanced next header? rest after hleaves =>
        have hinserted := (Decoder.move_of_step hstep).inserted_le
        have hlength := Decoder.length_lt_of_step_advanced hready.valid.stage hstep
        have hleft := hleaves.unread_eq
        dsimp only at hinserted
        -- One more entry at most, for at least one octet less.
        have hnext : next.Ready := hready.advanced hstep (by omega)
        obtain ⟨last, hrun, hlast⟩ := hrec hnext (hleaves.inOrder horder)
          (by rw [hleft]; omega) (by rw [hleft]; omega)
        rw [hleft] at hrun hlast
        rw [Decoder.consume_advanced hready.valid hstep]
        dsimp only
        rw [bind_of_eq_some hrun]
        exact ⟨last, rfl, hleaves.trans hlast⟩
      | waiting hleaves =>
        rw [Decoder.consume_waiting hready.valid hne hstep]
        dsimp only
        rw [hleaves.unread_eq]
        exact ⟨_, rfl, hleaves⟩
      | failed hleaves =>
        rw [Decoder.consume_failed hready.valid hstep]
        dsimp only
        rw [hleaves.unread_eq]
        exact ⟨_, rfl, hleaves⟩

/-- Decoding a queue fails in no operation, and yields what the decoder yields. -/
theorem decode_eq (hready : decoder.Ready) (horder : Input.InOrder queue)
    (hroom : decoder.table.inserted + queue.unread.length < Bits.values 60) :
    decode decoder queue = some (decoder.decode queue) := by
  obtain ⟨after, hrun, hleaves⟩ := exists_run hready horder hroom (Nat.lt_succ_self _)
  rw [decode, bind_of_eq_some (Input.available_eq horder), ← Queue.length_unread,
    bind_of_eq_some hrun]
  dsimp only
  rw [hleaves.setMark_eq]
  rfl

end HeaderCompression.Checked.Decoding
