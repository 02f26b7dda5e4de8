import HeaderCompression.Block.Reader
import HeaderCompression.Proofs.Decoder.Validity
import HeaderCompression.Proofs.Octets.Queue

/-!
# Runs of the decoder

The number of steps bounds a run only for the sake of its termination: a step that goes on takes an
octet, so a run that may take as many steps as there are octets is never cut short. Such a run is
known from its first step and from the run that follows, and a run on more octets is a run on the
first of them, taken up again.
-/

namespace HeaderCompression

open Octets

namespace Decoder

variable {decoder next : Decoder} {header? : Option Header} {unread rest : Octets}
  {error : DecodingError}

/-- Take steps until none goes on. -/
def consume (decoder : Decoder) (unread : Octets) : Outcome :=
  decoder.run unread.length unread

/-! ## The first step -/

theorem ne_nil_of_step_advanced (hvalid : decoder.Valid)
    (hstep : decoder.step unread = .advanced next header? rest) : unread ≠ [] := by
  have hlength := length_lt_of_step_advanced hvalid.stage hstep
  exact List.ne_nil_of_length_pos (Nat.zero_lt_of_lt hlength)

theorem ne_nil_of_step_failed (hvalid : decoder.Valid)
    (hstep : decoder.step unread = .failed error rest) : unread ≠ [] := by
  rintro rfl
  rcases exists_reads_or_skips hvalid.stage with ⟨reader, hreads⟩ | ⟨remaining, more, done, hskips⟩
  · have hread := hreads.of_failed hstep
    rw [hreads.nil] at hread
    cases hread
  · exact hskips.step_ne_failed hstep

theorem run_nil (steps : Nat) : decoder.run steps [] = { decoder, headers := [], rest := [] } := by
  cases steps <;> rfl

theorem run_succ {steps : Nat} (hne : unread ≠ []) :
    decoder.run (steps + 1) unread =
      match decoder.step unread with
      | .advanced decoder header? rest => (run steps decoder rest).after header?
      | .waiting decoder rest => { decoder, headers := [], rest }
      | .failed error rest => { decoder, headers := [], rest, error? := some error } := by
  cases unread with
  | nil => exact absurd rfl hne
  | cons octet unread => rfl

/-- More steps than octets make no difference. -/
theorem run_eq_run (hvalid : decoder.Valid) {first second : Nat} (hfirst : unread.length ≤ first)
    (hsecond : unread.length ≤ second) : decoder.run first unread = decoder.run second unread := by
  induction first generalizing decoder unread second with
  | zero =>
    obtain rfl := List.eq_nil_of_length_eq_zero (Nat.le_zero.1 hfirst)
    rw [run_nil, run_nil]
  | succ first hrec =>
    by_cases hnil : unread = []
    · rw [hnil, run_nil, run_nil]
    · have hpos := List.length_pos_iff.2 hnil
      obtain ⟨second, rfl⟩ : ∃ fewer, second = fewer + 1 := ⟨second - 1, by omega⟩
      rw [run_succ hnil, run_succ hnil]
      cases hstep : decoder.step unread with
      | waiting next rest => rfl
      | failed error rest => rfl
      | advanced next header? rest =>
        have hlength := length_lt_of_step_advanced hvalid.stage hstep
        have hrest : next.run first rest = next.run second rest :=
          hrec (hvalid.step_advanced hstep) (by omega) (by omega)
        exact congrArg (Outcome.after header?) hrest

theorem run_eq_consume (hvalid : decoder.Valid) {steps : Nat} (hsteps : unread.length ≤ steps) :
    decoder.run steps unread = decoder.consume unread :=
  run_eq_run hvalid hsteps (Nat.le_refl unread.length)

theorem consume_nil : decoder.consume [] = { decoder, headers := [], rest := [] } := rfl

theorem consume_of_ne_nil (hvalid : decoder.Valid) (hne : unread ≠ []) :
    decoder.consume unread =
      match decoder.step unread with
      | .advanced next header? rest => (next.consume rest).after header?
      | .waiting next rest => { decoder := next, headers := [], rest }
      | .failed error rest => { decoder, headers := [], rest, error? := some error } := by
  rw [← run_eq_consume hvalid (Nat.le_succ unread.length), run_succ hne]
  cases hstep : decoder.step unread with
  | waiting next rest => rfl
  | failed error rest => rfl
  | advanced next header? rest =>
    have hlength := length_lt_of_step_advanced hvalid.stage hstep
    dsimp only
    rw [run_eq_consume (hvalid.step_advanced hstep) (Nat.le_of_lt hlength)]

theorem consume_advanced (hvalid : decoder.Valid)
    (hstep : decoder.step unread = .advanced next header? rest) :
    decoder.consume unread = (next.consume rest).after header? := by
  rw [consume_of_ne_nil hvalid (ne_nil_of_step_advanced hvalid hstep), hstep]

theorem consume_waiting (hvalid : decoder.Valid) (hne : unread ≠ [])
    (hstep : decoder.step unread = .waiting next rest) :
    decoder.consume unread = { decoder := next, headers := [], rest } := by
  rw [consume_of_ne_nil hvalid hne, hstep]

theorem consume_failed (hvalid : decoder.Valid) (hstep : decoder.step unread = .failed error rest) :
    decoder.consume unread = { decoder, headers := [], rest, error? := some error } := by
  rw [consume_of_ne_nil hvalid (ne_nil_of_step_failed hvalid hstep), hstep]

/-- Induction along a run. -/
theorem consume_induction {motive : (decoder : Decoder) → Octets → decoder.Valid → Prop}
    (nil : ∀ decoder hvalid, motive decoder [] hvalid)
    (advanced : ∀ decoder unread next header? rest, ∀ hvalid : decoder.Valid,
      ∀ hstep : decoder.step unread = .advanced next header? rest,
      motive next rest (hvalid.step_advanced hstep) → motive decoder unread hvalid)
    (waiting : ∀ decoder unread next rest, ∀ hvalid : decoder.Valid, unread ≠ [] →
      decoder.step unread = .waiting next rest → motive decoder unread hvalid)
    (failed : ∀ decoder unread error rest, ∀ hvalid : decoder.Valid,
      decoder.step unread = .failed error rest → motive decoder unread hvalid)
    (decoder : Decoder) (unread : Octets) (hvalid : decoder.Valid) :
    motive decoder unread hvalid := by
  induction hlength : unread.length using Nat.strongRecOn generalizing decoder unread with
  | ind length hshorter =>
    subst hlength
    by_cases hne : unread = []
    · subst hne
      exact nil decoder hvalid
    · cases hstep : decoder.step unread with
      | waiting next rest => exact waiting decoder unread next rest hvalid hne hstep
      | failed error rest => exact failed decoder unread error rest hvalid hstep
      | advanced next header? rest =>
        have hrest := length_lt_of_step_advanced hvalid.stage hstep
        exact advanced decoder unread next header? rest hvalid hstep
          (hshorter rest.length hrest next rest (hvalid.step_advanced hstep) rfl)

theorem suffix_rest_consume (hvalid : decoder.Valid) (unread : Octets) :
    (decoder.consume unread).rest <:+ unread := by
  induction decoder, unread, hvalid using consume_induction with
  | nil decoder hvalid => exact List.suffix_refl []
  | advanced decoder unread next header? rest hvalid hstep hrest =>
    rw [consume_advanced hvalid hstep]
    exact hrest.trans (suffix_of_step_advanced hvalid.stage hstep)
  | waiting decoder unread next rest hvalid hne hstep =>
    rw [consume_waiting hvalid hne hstep]
    exact suffix_of_step_waiting hvalid.stage hstep
  | failed decoder unread error rest hvalid hstep =>
    rw [consume_failed hvalid hstep]
    exact suffix_of_step_failed hvalid.stage hstep

/-! ## Queues -/

theorem decode_fst (decoder : Decoder) (queue : Queue) :
    (decoder.decode queue).1 = decoder.consume queue.unread := rfl

theorem isMarked_decode (decoder : Decoder) (queue : Queue) : (decoder.decode queue).2.IsMarked :=
  Queue.isMarked_setMark _

/-- What a run leaves stays in the queue. -/
theorem unread_decode (hvalid : decoder.Valid) (queue : Queue) :
    (decoder.decode queue).2.unread = (decoder.consume queue.unread).rest := by
  have hrest := suffix_rest_consume hvalid queue.unread
  exact (Queue.unread_setMark _).trans (Queue.unread_leave hrest)

end Decoder

/-! ## Readers -/

namespace Block.Reader

variable {reader : Reader}

/-- What decoding a fragment comes to. -/
def outcome (reader : Reader) (fragment : Octets) : Decoder.Outcome :=
  reader.decoder.consume (reader.input.unread ++ fragment)

theorem decode_eq (hmarked : reader.input.IsMarked) (fragment : Octets) :
    reader.decode fragment =
      (match (reader.outcome fragment).error? with
        | none => .ok (reader.outcome fragment).headers
        | some error => .error error,
        ⟨(reader.outcome fragment).decoder,
          (reader.decoder.decode (reader.input.append fragment)).2⟩) := by
  have hdecoded : (reader.decoder.decode (reader.input.append fragment)).1 =
      reader.outcome fragment := by
    rw [Decoder.decode_fst, Queue.unread_append hmarked, outcome]
  unfold decode
  simp only [hdecoded]
  cases (reader.outcome fragment).error? <;> rfl

theorem isMarked_decode (reader : Reader) (fragment : Octets) :
    (reader.decode fragment).2.input.IsMarked := by
  unfold decode
  dsimp only
  split <;> exact Decoder.isMarked_decode _ _

theorem decoder_decode (hmarked : reader.input.IsMarked) (fragment : Octets) :
    (reader.decode fragment).2.decoder = (reader.outcome fragment).decoder := by
  rw [decode_eq hmarked]

theorem unread_decode (hvalid : reader.decoder.Valid) (hmarked : reader.input.IsMarked)
    (fragment : Octets) :
    (reader.decode fragment).2.input.unread = (reader.outcome fragment).rest := by
  rw [decode_eq hmarked]
  dsimp only
  rw [Decoder.unread_decode hvalid, Queue.unread_append hmarked, outcome]

theorem decode_eq_ok_iff (hmarked : reader.input.IsMarked) (fragment : Octets) :
    (reader.decode fragment).1 = .ok (reader.outcome fragment).headers ↔
      (reader.outcome fragment).error? = none := by
  rw [decode_eq hmarked]
  cases (reader.outcome fragment).error? <;> simp

theorem reachable_decode (hreachable : reader.decoder.Reachable) (fragment : Octets) :
    (reader.decode fragment).2.decoder.Reachable := by
  have hdecoded := hreachable.decode (reader.input.append fragment)
  unfold decode
  dsimp only
  split <;> exact hdecoded

theorem reachable_decodeAll (hreachable : reader.decoder.Reachable) (fragments : List Octets) :
    (reader.decodeAll fragments).reader.decoder.Reachable := by
  induction fragments generalizing reader with
  | nil => exact hreachable
  | cons fragment fragments hfragments =>
    have hnext := reachable_decode hreachable fragment
    unfold decodeAll
    split
    · rename_i headers next hdecode
      rw [hdecode] at hnext
      exact hfragments hnext
    · rename_i error next hdecode
      rw [hdecode] at hnext
      exact hnext

/-- A reader between two blocks. -/
structure IsIdle (reader : Reader) : Prop where
  reachable : reader.decoder.Reachable
  isMarked : reader.input.IsMarked
  unread_eq_nil : reader.input.unread = []
  atBoundary : reader.decoder.stage = .boundary

theorem isIdle_ofSettings (settings : DecoderSettings) : (ofSettings settings).IsIdle :=
  ⟨.ofSettings settings, Queue.isMarked_empty, rfl, rfl⟩

/-- Whatever has happened in a block, the reader is ready for another one after its end. -/
theorem isIdle_endBlock (hreachable : reader.decoder.Reachable) : reader.endBlock.2.IsIdle :=
  ⟨hreachable.endBlock, Queue.isMarked_empty, rfl, rfl⟩

theorem IsIdle.setTableSizeLimit (hidle : reader.IsIdle) (limit : Nat) :
    (reader.setTableSizeLimit limit).IsIdle :=
  { hidle with reachable := hidle.reachable.setTableSizeLimit limit }

theorem IsIdle.setPolicy (hidle : reader.IsIdle) (policy : Table.EvictionPolicy) :
    (reader.setPolicy policy).IsIdle :=
  { hidle with reachable := hidle.reachable.setPolicy policy }

/-- Nothing is partial if nothing is buffered and no representation has been begun. -/
theorem isPartial_eq_false_iff :
    reader.isPartial = false ↔ reader.input.unread = [] ∧ reader.decoder.stage = .boundary := by
  unfold isPartial buffered Decoder.isPartial
  rw [Bool.or_eq_false_iff, ← Queue.length_unread, decide_eq_false_iff_not, Nat.not_lt, Nat.le_zero,
    List.length_eq_zero_iff, decide_eq_false_iff_not, Decidable.not_not]

end Block.Reader

end HeaderCompression
