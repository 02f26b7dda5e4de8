import HeaderCompression.Decoder
import HeaderCompression.Proofs.Wire.StringLiteral

/-!
# Steps of the decoder

A step either reads a whole element and draws its consequences, or passes over octets that nobody
needs. Both kinds look no further than they take, so a step that is taken on some octets is taken in
the same way when more octets follow, and a step that waits can be taken up again where it stopped.
-/

namespace HeaderCompression

open Octets Wire

/-! ## Elements -/

theorem LengthPart.prefixwise_read (part : LengthPart) : Prefixwise part.read := by
  cases part with
  | opening => exact Prefixwise.first.map LengthReading.ofOctet
  | continuation huffman => exact PrefixedInteger.prefixwise_readContinuation.map _

theorem LengthPart.read_nil (part : LengthPart) : part.read [] = .incomplete := by
  cases part <;> rfl

/-- The element that comes next takes at least one octet. -/
def Stage.IsProductive : Stage → Prop
  | .name _ _ length => 0 < length
  | .skippedName _ remaining => 0 < remaining
  | .value _ _ _ length => 0 < length
  | .skippedValue remaining => 0 < remaining
  | _ => True

namespace Decoder

variable {decoder next : Decoder} {header? : Option Header} {unread rest : Octets}
  {error : DecodingError}

/-! ## Two kinds of steps -/

/-- An element together with its consequences. -/
def readWith {α : Type} (reader : Octets → Reading α) (consequence : α → Transition)
    (octets : Octets) : Reading (Decoder × Option Header) :=
  (reader octets).andThen fun element ↦ .ofExcept (consequence element)

def Step.ofReading (decoder : Decoder) (unread : Octets) :
    Reading (Decoder × Option Header) → Step
  | .complete completed rest => .advanced completed.1 completed.2 rest
  | .incomplete => .waiting decoder unread
  | .failed error rest => .failed error rest

theorem stepWith_eq {α : Type} (decoder : Decoder) (unread : Octets) (reader : Octets → Reading α)
    (consequence : α → Transition) :
    decoder.stepWith unread reader consequence =
      .ofReading decoder unread (readWith reader consequence unread) := by
  unfold stepWith readWith
  cases reader unread with
  | incomplete => rfl
  | failed error rest => rfl
  | complete element rest =>
    cases hconsequence : consequence element <;> simp [Step.ofReading, hconsequence]

theorem exists_of_stepWith_advanced {α : Type} {reader : Octets → Reading α}
    {consequence : α → Transition}
    (hstep : decoder.stepWith unread reader consequence = .advanced next header? rest) :
    ∃ element, reader unread = .complete element rest ∧
      consequence element = .ok (next, header?) := by
  unfold stepWith at hstep
  split at hstep
  · rename_i element middle hread
    split at hstep
    · rename_i other otherHeader? hother
      obtain ⟨rfl, rfl, rfl⟩ := Step.advanced.inj hstep
      exact ⟨element, hread, hother⟩
    · cases hstep
  · cases hstep
  · cases hstep

theorem stepWith_of_complete {α : Type} {reader : Octets → Reading α}
    {consequence : α → Transition} {element : α} (hread : reader unread = .complete element rest)
    (hconsequence : consequence element = .ok (next, header?)) :
    decoder.stepWith unread reader consequence = .advanced next header? rest := by
  unfold stepWith
  rw [hread]
  dsimp only
  rw [hconsequence]

/-- The steps of the decoder read an element with this reader. -/
structure Reads (decoder : Decoder) (reader : Octets → Reading (Decoder × Option Header)) :
    Prop where
  prefixwise : Prefixwise reader
  nil : reader [] = .incomplete
  step_eq (unread : Octets) : decoder.step unread = .ofReading decoder unread (reader unread)

/-- The steps of the decoder pass over octets. -/
structure Skips (decoder : Decoder) (remaining : Nat) (more : Nat → Stage) (done : Stage) :
    Prop where
  pos : 0 < remaining
  step_eq (unread : Octets) :
    decoder.step unread = decoder.stepSkipping unread remaining more done
  step_more (fewer : Nat) (unread : Octets) :
    { decoder with stage := more fewer : Decoder }.step unread =
      decoder.stepSkipping unread fewer more done

theorem reads_of_readWith {α : Type} {reader : Octets → Reading α} {consequence : α → Transition}
    (hreader : Prefixwise reader) (hnil : reader [] = .incomplete)
    (hstep : ∀ unread, decoder.step unread = decoder.stepWith unread reader consequence) :
    decoder.Reads (readWith reader consequence) where
  prefixwise := hreader.andThen fun element ↦ .ofExcept (consequence element)
  nil := by rw [readWith, hnil, Reading.andThen_incomplete]
  step_eq unread := (hstep unread).trans (stepWith_eq decoder unread reader consequence)

theorem exists_reads_or_skips (hstage : decoder.stage.IsProductive) :
    (∃ reader, decoder.Reads reader) ∨
      ∃ remaining more done, decoder.Skips remaining more done := by
  cases decoder with
  | mk table budget tableSizeLimit stage =>
    cases stage with
    | boundary => exact .inl ⟨_, reads_of_readWith .first rfl fun _ ↦ rfl⟩
    | index opening =>
      exact .inl ⟨_, reads_of_readWith PrefixedInteger.prefixwise_readContinuation rfl fun _ ↦ rfl⟩
    | nameLength indexing part =>
      exact .inl ⟨_, reads_of_readWith part.prefixwise_read part.read_nil fun _ ↦ rfl⟩
    | name indexing huffman length =>
      exact .inl ⟨_, reads_of_readWith (StringLiteral.prefixwise_readPayload huffman length)
        (StringLiteral.readPayload_nil hstage) fun _ ↦ rfl⟩
    | skippedName indexing remaining =>
      exact .inr ⟨remaining, .skippedName indexing, .valueLength indexing none .opening,
        hstage, fun _ ↦ rfl, fun _ _ ↦ rfl⟩
    | valueLength indexing name? part =>
      exact .inl ⟨_, reads_of_readWith part.prefixwise_read part.read_nil fun _ ↦ rfl⟩
    | value indexing name huffman length =>
      let decoder : Decoder := ⟨table, budget, tableSizeLimit, .value indexing name huffman length⟩
      have hstep : ∀ unread, decoder.step unread =
          decoder.stepWith unread (StringLiteral.readPayload huffman length) fun value ↦
            .ok (decoder.deliverLiteral indexing ⟨name, value⟩) := fun _ ↦ rfl
      exact .inl ⟨_, reads_of_readWith (StringLiteral.prefixwise_readPayload huffman length)
        (StringLiteral.readPayload_nil hstage) hstep⟩
    | skippedValue remaining =>
      exact .inr ⟨remaining, .skippedValue, .boundary, hstage, fun _ ↦ rfl, fun _ _ ↦ rfl⟩

/-! ## Outcomes of a step that reads -/

namespace Reads

variable {reader : Octets → Reading (Decoder × Option Header)}

theorem of_advanced (hreads : decoder.Reads reader)
    (hstep : decoder.step unread = .advanced next header? rest) :
    reader unread = .ofExcept (.ok (next, header?)) rest := by
  rw [hreads.step_eq unread] at hstep
  cases hread : reader unread with
  | incomplete => simp [hread, Step.ofReading] at hstep
  | failed error middle => simp [hread, Step.ofReading] at hstep
  | complete completed middle =>
    rw [hread, Step.ofReading] at hstep
    obtain ⟨rfl, rfl, rfl⟩ := Step.advanced.inj hstep
    rfl

theorem of_failed (hreads : decoder.Reads reader)
    (hstep : decoder.step unread = .failed error rest) :
    reader unread = .ofExcept (.error error) rest := by
  rw [hreads.step_eq unread] at hstep
  cases hread : reader unread with
  | incomplete => simp [hread, Step.ofReading] at hstep
  | complete completed middle => simp [hread, Step.ofReading] at hstep
  | failed error middle =>
    rw [hread, Step.ofReading] at hstep
    obtain ⟨rfl, rfl⟩ := Step.failed.inj hstep
    rfl

/-- A step that waits for the rest of an element leaves everything as it is. -/
theorem of_waiting (hreads : decoder.Reads reader)
    (hstep : decoder.step unread = .waiting next rest) :
    next = decoder ∧ rest = unread := by
  rw [hreads.step_eq unread] at hstep
  cases hread : reader unread with
  | complete completed middle => simp [hread, Step.ofReading] at hstep
  | failed error middle => simp [hread, Step.ofReading] at hstep
  | incomplete =>
    rw [hread, Step.ofReading] at hstep
    obtain ⟨rfl, rfl⟩ := Step.waiting.inj hstep
    exact ⟨rfl, rfl⟩

end Reads

/-! ## Outcomes of a step that passes over octets -/

theorem stepSkipping_ne_failed {remaining : Nat} {more : Nat → Stage} {done : Stage} :
    decoder.stepSkipping unread remaining more done ≠ .failed error rest := by
  unfold stepSkipping
  split <;> simp

namespace Skips

variable {remaining : Nat} {more : Nat → Stage} {done : Stage}

theorem step_of_length_lt (hskips : decoder.Skips remaining more done)
    (hlength : unread.length < remaining) :
    decoder.step unread =
      .waiting { decoder with stage := more (remaining - unread.length) } [] := by
  rw [hskips.step_eq, stepSkipping, if_pos hlength]

theorem step_of_le_length (hskips : decoder.Skips remaining more done)
    (hlength : remaining ≤ unread.length) :
    decoder.step unread =
      .advanced { decoder with stage := done } none (unread.drop remaining) := by
  rw [hskips.step_eq, stepSkipping, if_neg (Nat.not_lt.2 hlength)]

theorem of_advanced (hskips : decoder.Skips remaining more done)
    (hstep : decoder.step unread = .advanced next header? rest) :
    remaining ≤ unread.length ∧ next = { decoder with stage := done } ∧ header? = none ∧
      rest = unread.drop remaining := by
  by_cases hlength : unread.length < remaining
  · rw [hskips.step_of_length_lt hlength] at hstep
    cases hstep
  · have hle := Nat.le_of_not_lt hlength
    rw [hskips.step_of_le_length hle] at hstep
    obtain ⟨rfl, rfl, rfl⟩ := Step.advanced.inj hstep
    exact ⟨hle, rfl, rfl, rfl⟩

theorem of_waiting (hskips : decoder.Skips remaining more done)
    (hstep : decoder.step unread = .waiting next rest) :
    unread.length < remaining ∧ next = { decoder with stage := more (remaining - unread.length) } ∧
      rest = [] := by
  by_cases hlength : unread.length < remaining
  · rw [hskips.step_of_length_lt hlength] at hstep
    obtain ⟨rfl, rfl⟩ := Step.waiting.inj hstep
    exact ⟨hlength, rfl, rfl⟩
  · rw [hskips.step_of_le_length (Nat.le_of_not_lt hlength)] at hstep
    cases hstep

theorem step_ne_failed (hskips : decoder.Skips remaining more done) :
    decoder.step unread ≠ .failed error rest := by
  rw [hskips.step_eq]
  exact stepSkipping_ne_failed

end Skips

/-! ## Octets that follow -/

theorem step_advanced_append (hstage : decoder.stage.IsProductive)
    (hstep : decoder.step unread = .advanced next header? rest) (others : Octets) :
    decoder.step (unread ++ others) = .advanced next header? (rest ++ others) := by
  rcases exists_reads_or_skips hstage with ⟨reader, hreads⟩ | ⟨remaining, more, done, hskips⟩
  · have happend := hreads.prefixwise.append _ (hreads.of_advanced hstep) others
    rw [hreads.step_eq, happend]
    rfl
  · obtain ⟨hlength, rfl, rfl, rfl⟩ := hskips.of_advanced hstep
    have hlonger : remaining ≤ (unread ++ others).length := by
      rw [List.length_append]
      omega
    rw [hskips.step_of_le_length hlonger, List.drop_append_of_le_length hlength]

theorem step_failed_append (hstage : decoder.stage.IsProductive)
    (hstep : decoder.step unread = .failed error rest) (others : Octets) :
    decoder.step (unread ++ others) = .failed error (rest ++ others) := by
  rcases exists_reads_or_skips hstage with ⟨reader, hreads⟩ | ⟨remaining, more, done, hskips⟩
  · have happend := hreads.prefixwise.append _ (hreads.of_failed hstep) others
    rw [hreads.step_eq, happend]
    rfl
  · exact absurd hstep hskips.step_ne_failed

/-- A step that waits is taken up where it stopped. -/
theorem step_waiting_append (hstage : decoder.stage.IsProductive)
    (hstep : decoder.step unread = .waiting next rest) (others : Octets) :
    decoder.step (unread ++ others) = next.step (rest ++ others) := by
  rcases exists_reads_or_skips hstage with ⟨reader, hreads⟩ | ⟨remaining, more, done, hskips⟩
  · obtain ⟨rfl, rfl⟩ := hreads.of_waiting hstep
    rfl
  · obtain ⟨hlength, rfl, rfl⟩ := hskips.of_waiting hstep
    rw [hskips.step_more, hskips.step_eq, List.nil_append]
    unfold stepSkipping
    rw [List.length_append, List.drop_append, List.drop_eq_nil_of_le (Nat.le_of_lt hlength),
      List.nil_append]
    by_cases hmore : unread.length + others.length < remaining
    · rw [if_pos hmore, if_pos (by omega), Nat.sub_add_eq]
    · rw [if_neg hmore, if_neg (by omega)]

/-- Only a step that reads can fail later on, and it has changed nothing while it waited. -/
theorem eq_of_step_waiting_of_failed (hstage : decoder.stage.IsProductive)
    (hstep : decoder.step unread = .waiting next rest) {others left : Octets}
    (hfailed : next.step others = .failed error left) : next = decoder := by
  rcases exists_reads_or_skips hstage with ⟨reader, hreads⟩ | ⟨remaining, more, done, hskips⟩
  · exact (hreads.of_waiting hstep).1
  · obtain ⟨-, rfl, -⟩ := hskips.of_waiting hstep
    rw [hskips.step_more] at hfailed
    exact absurd hfailed stepSkipping_ne_failed

/-! ## Octets that are taken -/

/-- What a step does is decided by the octets that it takes. -/
theorem exists_taken_of_step_advanced (hstage : decoder.stage.IsProductive)
    (hstep : decoder.step unread = .advanced next header? rest) :
    ∃ taken, unread = taken ++ rest ∧
      ∀ others, decoder.step (taken ++ others) = .advanced next header? others := by
  rcases exists_reads_or_skips hstage with ⟨reader, hreads⟩ | ⟨remaining, more, done, hskips⟩
  · obtain ⟨taken, rfl, htaken⟩ := hreads.prefixwise.decided _ (hreads.of_advanced hstep)
    refine ⟨taken, rfl, fun others ↦ ?_⟩
    rw [hreads.step_eq, htaken]
    rfl
  · obtain ⟨hlength, rfl, rfl, rfl⟩ := hskips.of_advanced hstep
    have htake : (unread.take remaining).length = remaining := List.length_take_of_le hlength
    refine ⟨unread.take remaining, (List.take_append_drop remaining unread).symm, fun others ↦ ?_⟩
    rw [hskips.step_of_le_length (by rw [List.length_append]; omega), List.drop_left' htake]

theorem length_lt_of_step_advanced (hstage : decoder.stage.IsProductive)
    (hstep : decoder.step unread = .advanced next header? rest) : rest.length < unread.length := by
  rcases exists_reads_or_skips hstage with ⟨reader, hreads⟩ | ⟨remaining, more, done, hskips⟩
  · exact hreads.prefixwise.length_lt hreads.nil _ (hreads.of_advanced hstep)
  · obtain ⟨hlength, -, -, rfl⟩ := hskips.of_advanced hstep
    have hpos := hskips.pos
    rw [List.length_drop]
    omega

theorem suffix_of_step_advanced (hstage : decoder.stage.IsProductive)
    (hstep : decoder.step unread = .advanced next header? rest) : rest <:+ unread := by
  rcases exists_reads_or_skips hstage with ⟨reader, hreads⟩ | ⟨remaining, more, done, hskips⟩
  · exact hreads.prefixwise.suffix _ (hreads.of_advanced hstep)
  · obtain ⟨-, -, -, rfl⟩ := hskips.of_advanced hstep
    exact List.drop_suffix remaining unread

theorem suffix_of_step_failed (hstage : decoder.stage.IsProductive)
    (hstep : decoder.step unread = .failed error rest) : rest <:+ unread := by
  rcases exists_reads_or_skips hstage with ⟨reader, hreads⟩ | ⟨remaining, more, done, hskips⟩
  · exact hreads.prefixwise.suffix _ (hreads.of_failed hstep)
  · exact absurd hstep hskips.step_ne_failed

theorem suffix_of_step_waiting (hstage : decoder.stage.IsProductive)
    (hstep : decoder.step unread = .waiting next rest) : rest <:+ unread := by
  rcases exists_reads_or_skips hstage with ⟨reader, hreads⟩ | ⟨remaining, more, done, hskips⟩
  · obtain ⟨-, rfl⟩ := hreads.of_waiting hstep
    exact List.suffix_refl rest
  · obtain ⟨-, -, rfl⟩ := hskips.of_waiting hstep
    exact List.nil_suffix

end Decoder

end HeaderCompression
