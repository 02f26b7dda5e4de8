import HeaderCompression.Proofs.Decoder.Waiting
import Mathlib.Logic.Relation

/-!
# Progress of the decoder

Decoding is a loop that is left when nothing is unread or a step does not go on. Nothing bounds it
but the octets: every step that goes on takes at least one, so the loop is gone through no more
often than there are octets. When it is left, octets may be unread only where the decoder waits for
the rest of an integer or of a string.
-/

namespace HeaderCompression

open Octets Wire

namespace Decoder

variable {decoder next : Decoder} {header? : Option Header} {unread rest : Octets}
  {outcome : Outcome}

/-! ## The loop -/

/-- One time through the loop that goes on. -/
def AdvancesTo (current next : Decoder × Octets) : Prop :=
  current.2 ≠ [] ∧ ∃ header?, current.1.step current.2 = .advanced next.1 header? next.2

/-- What the loop comes to, and how often it is gone through. The loop is left before a step if
nothing is unread, and after a step that waits or fails. -/
inductive Loops : Decoder → Octets → (times : Nat) → Outcome → Prop
  | drained (decoder : Decoder) : Loops decoder [] 0 { decoder, headers := [], rest := [] }
  | advanced {decoder next : Decoder} {unread rest : Octets} {header? : Option Header}
    {times : Nat} {outcome : Outcome} (hne : unread ≠ [])
    (hstep : decoder.step unread = .advanced next header? rest)
    (hrest : Loops next rest times outcome) :
    Loops decoder unread (times + 1) (outcome.after header?)
  | waiting {decoder next : Decoder} {unread rest : Octets} (hne : unread ≠ [])
    (hstep : decoder.step unread = .waiting next rest) :
    Loops decoder unread 1 { decoder := next, headers := [], rest }
  | failed {decoder : Decoder} {unread rest : Octets} {error : DecodingError} (hne : unread ≠ [])
    (hstep : decoder.step unread = .failed error rest) :
    Loops decoder unread 1 { decoder, headers := [], rest, error? := some error }

/-- The loop is left after some time, at the latest when every octet has been taken. -/
theorem exists_loops_consume (hvalid : decoder.Valid) (unread : Octets) :
    ∃ times ≤ unread.length, decoder.Loops unread times (decoder.consume unread) := by
  induction decoder, unread, hvalid using consume_induction with
  | nil decoder hvalid => exact ⟨0, Nat.le_refl 0, .drained decoder⟩
  | advanced decoder unread next header? rest hvalid hstep hrest =>
    obtain ⟨times, htimes, hloops⟩ := hrest
    have hlength := length_lt_of_step_advanced hvalid.stage hstep
    rw [consume_advanced hvalid hstep]
    exact ⟨times + 1, by omega, .advanced (ne_nil_of_step_advanced hvalid hstep) hstep hloops⟩
  | waiting decoder unread next rest hvalid hne hstep =>
    rw [consume_waiting hvalid hne hstep]
    exact ⟨1, List.length_pos_iff.2 hne, .waiting hne hstep⟩
  | failed decoder unread error rest hvalid hstep =>
    have hne := ne_nil_of_step_failed hvalid hstep
    rw [consume_failed hvalid hstep]
    exact ⟨1, List.length_pos_iff.2 hne, .failed hne hstep⟩

/-- There is only one way through the loop. -/
theorem Loops.unique {times others : Nat} {other : Outcome}
    (hloops : decoder.Loops unread times outcome) (hothers : decoder.Loops unread others other) :
    times = others ∧ outcome = other := by
  induction hloops generalizing others other with
  | drained decoder =>
    cases hothers with
    | drained => exact ⟨rfl, rfl⟩
    | _ => contradiction
  | advanced hne hstep hrest hunique =>
    cases hothers with
    | drained => contradiction
    | advanced hneOther hstepOther hrestOther =>
      obtain ⟨rfl, rfl, rfl⟩ := Step.advanced.inj (hstep.symm.trans hstepOther)
      obtain ⟨rfl, rfl⟩ := hunique hrestOther
      exact ⟨rfl, rfl⟩
    | waiting hneOther hstepOther => cases hstep.symm.trans hstepOther
    | failed hneOther hstepOther => cases hstep.symm.trans hstepOther
  | waiting hne hstep =>
    cases hothers with
    | drained => contradiction
    | waiting hneOther hstepOther =>
      obtain ⟨rfl, rfl⟩ := Step.waiting.inj (hstep.symm.trans hstepOther)
      exact ⟨rfl, rfl⟩
    | advanced hneOther hstepOther hrestOther => cases hstep.symm.trans hstepOther
    | failed hneOther hstepOther => cases hstep.symm.trans hstepOther
  | failed hne hstep =>
    cases hothers with
    | drained => contradiction
    | failed hneOther hstepOther =>
      obtain ⟨rfl, rfl⟩ := Step.failed.inj (hstep.symm.trans hstepOther)
      exact ⟨rfl, rfl⟩
    | advanced hneOther hstepOther hrestOther => cases hstep.symm.trans hstepOther
    | waiting hneOther hstepOther => cases hstep.symm.trans hstepOther

/-- The loop comes to what a run comes to, and to nothing else. -/
theorem exists_loops_iff (hvalid : decoder.Valid) (unread : Octets) :
    ∃ times ≤ unread.length, ∀ count outcome, decoder.Loops unread count outcome ↔
      count = times ∧ outcome = decoder.consume unread := by
  obtain ⟨times, htimes, hloops⟩ := exists_loops_consume hvalid unread
  refine ⟨times, htimes, fun count outcome ↦ ⟨fun hothers ↦ hothers.unique hloops, ?_⟩⟩
  rintro ⟨rfl, rfl⟩
  exact hloops

theorem Valid.of_advances {current later : Decoder × Octets} (hvalid : current.1.Valid)
    (hadvances : Relation.ReflTransGen AdvancesTo current later) : later.1.Valid := by
  induction hadvances with
  | refl => exact hvalid
  | tail hbefore hlast hmiddle =>
    obtain ⟨-, header?, hstep⟩ := hlast
    exact hmiddle.step_advanced hstep

theorem AdvancesTo.exists_taken {current next : Decoder × Octets} (hvalid : current.1.Valid)
    (hadvances : AdvancesTo current next) : ∃ taken ≠ [], current.2 = taken ++ next.2 := by
  obtain ⟨-, header?, hstep⟩ := hadvances
  obtain ⟨taken, htaken⟩ := suffix_of_step_advanced hvalid.stage hstep
  refine ⟨taken, ?_, htaken.symm⟩
  rintro rfl
  have hlength := length_lt_of_step_advanced hvalid.stage hstep
  rw [← htaken] at hlength
  exact Nat.lt_irrefl _ hlength

/-- Whatever a decoder has been through, errors included, and whatever a queue holds, each time
through the loop that goes on takes at least one octet, and the loop is left after no more times
than there are octets. If octets are left without an error, the decoder is inside a representation:
there are at most four, with which an integer goes on, or there are fewer than the known length of
the string that comes next. -/
theorem decode_makes_progress (hreachable : decoder.Reachable) (queue : Queue) :
    let decoded := decoder.decode queue
    let stage := decoded.1.decoder.stage
    (∀ current next, Relation.ReflTransGen AdvancesTo (decoder, queue.unread) current →
      AdvancesTo current next → ∃ taken ≠ [], current.2 = taken ++ next.2) ∧
    (∃ times ≤ queue.available, ∀ count outcome, decoder.Loops queue.unread count outcome ↔
      count = times ∧ outcome = decoded.1) ∧
    (decoded.1.error? = none → 0 < decoded.2.available →
      decoded.1.decoder.isPartial = true ∧ ¬stage.IsSkipping ∧
        (stage.AwaitsContinuation ∧ decoded.2.available ≤ 4 ∧
            (∀ octet ∈ decoded.2.unread, 128 ≤ octet.toNat) ∨
          decoded.2.available < stage.awaited)) := by
  have hvalid := hreachable.valid
  intro decoded stage
  refine ⟨fun current next hadvances ↦ ?_, ?_, fun herror hpos ↦ ?_⟩
  · exact AdvancesTo.exists_taken (hvalid.of_advances hadvances)
  · rw [← Queue.length_unread]
    exact exists_loops_iff hvalid queue.unread
  · have hunread : decoded.2.unread = (decoder.consume queue.unread).rest :=
      unread_decode hvalid queue
    rw [← Queue.length_unread] at hpos ⊢
    rw [hunread] at hpos ⊢
    have hshort := isShortOf_consume hvalid queue.unread herror (List.ne_nil_of_length_pos hpos)
    refine ⟨decide_eq_true hshort.ne_boundary, hshort.not_isSkipping, ?_⟩
    cases hshort with
    | continuation hstage hstart => exact .inl ⟨hstage, hstart.length_le, hstart.goesOn⟩
    | payload hlength => exact .inr hlength

/-- After an index that was too large, two octets are left with which the next one goes on. -/
theorem decode_makes_progress_of_error :
    let failed := (ofSettings { }).decode (.ofOctets [0xff, 0x80, 0x80, 0x80, 0x80, 0x08])
    let decoded := failed.1.decoder.decode (.ofOctets [0x80, 0x80])
    let stage := decoded.1.decoder.stage
    failed.1.error? = some .integerOverflow ∧ failed.1.decoder.Reachable ∧
      decoded.1.error? = none ∧ decoded.2.available = 2 ∧
      decoded.1.decoder.isPartial = true ∧ ¬stage.IsSkipping ∧
      (stage.AwaitsContinuation ∧ decoded.2.available ≤ 4 ∧
          (∀ octet ∈ decoded.2.unread, 128 ≤ octet.toNat) ∨
        decoded.2.available < stage.awaited) := by
  intro failed decoded stage
  have hreachable : failed.1.decoder.Reachable := (Reachable.ofSettings { }).decode _
  have hprogress := decode_makes_progress hreachable (.ofOctets [0x80, 0x80])
  have hnone : decoded.1.error? = none := rfl
  have htwo : decoded.2.available = 2 := rfl
  exact ⟨rfl, hreachable, hnone, htwo, hprogress.2.2 hnone (by decide)⟩

end Decoder

end HeaderCompression
