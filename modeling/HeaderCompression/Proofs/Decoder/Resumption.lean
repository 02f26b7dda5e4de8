import HeaderCompression.Proofs.Decoder.Runs
import HeaderCompression.Proofs.Octets.Arrival

/-!
# Decoding in fragments

It makes no difference where a header block is cut. A decoder that is given the fragments one after
the other, and stops at the first error, ends up where it would have ended up with all of them at
once. Rewinding the queue in between gives nothing back, since decoding leaves it marked.
-/

namespace HeaderCompression.Decoder

open Octets Block

variable {decoder : Decoder} {queue : Queue}

/-! ## Runs on more octets -/

/-- Go on where a run has stopped, unless it has failed. -/
def Outcome.resume (outcome : Outcome) (others : Octets) : Outcome :=
  match outcome.error? with
  | some _ => { outcome with rest := outcome.rest ++ others }
  | none =>
    let resumed := outcome.decoder.consume (outcome.rest ++ others)
    { resumed with headers := outcome.headers ++ resumed.headers }

theorem Outcome.resume_of_error {outcome : Outcome} {error : DecodingError}
    (herror : outcome.error? = some error) (others : Octets) :
    outcome.resume others = { outcome with rest := outcome.rest ++ others } := by
  rw [resume, herror]

theorem Outcome.resume_of_no_error {outcome : Outcome} (herror : outcome.error? = none)
    (others : Octets) :
    outcome.resume others =
      { outcome.decoder.consume (outcome.rest ++ others) with
        headers := outcome.headers ++
          (outcome.decoder.consume (outcome.rest ++ others)).headers } := by
  rw [resume, herror]

theorem Outcome.after_resume (header? : Option Header) (outcome : Outcome) (others : Octets) :
    (outcome.after header?).resume others = (outcome.resume others).after header? := by
  unfold resume after
  cases herror : outcome.error? with
  | some error => rfl
  | none => simp only [List.append_assoc]

/-- A run on more octets is the run on the first of them, taken up again. -/
theorem consume_append (hvalid : decoder.Valid) (unread others : Octets) :
    decoder.consume (unread ++ others) = (decoder.consume unread).resume others := by
  induction decoder, unread, hvalid using consume_induction with
  | nil decoder hvalid =>
    rw [consume_nil, Outcome.resume_of_no_error rfl]
    rfl
  | advanced decoder unread next header? rest hvalid hstep hrest =>
    rw [consume_advanced hvalid hstep, Outcome.after_resume, ← hrest]
    exact consume_advanced hvalid (step_advanced_append hvalid.stage hstep others)
  | failed decoder unread error rest hvalid hstep =>
    rw [consume_failed hvalid hstep, Outcome.resume_of_error rfl]
    exact consume_failed hvalid (step_failed_append hvalid.stage hstep others)
  | waiting decoder unread next rest hvalid hne hstep =>
    have hnext := hvalid.step_waiting hstep
    have happend := step_waiting_append hvalid.stage hstep others
    have hboth : decoder.consume (unread ++ others) = next.consume (rest ++ others) := by
      by_cases hnil : rest ++ others = []
      · -- Nothing is left and nothing arrives, so the step waits as it did before.
        obtain ⟨rfl, rfl⟩ := List.append_eq_nil_iff.1 hnil
        rw [List.append_nil, consume_waiting hvalid hne hstep]
        rfl
      · have happended : unread ++ others ≠ [] := fun hempty ↦
          hne (List.append_eq_nil_iff.1 hempty).1
        rw [consume_of_ne_nil hvalid happended, consume_of_ne_nil hnext hnil, happend]
        cases hagain : next.step (rest ++ others) with
        | advanced other header? left => rfl
        | waiting other left => rfl
        | failed error left =>
          rw [eq_of_step_waiting_of_failed hvalid.stage hstep hagain]
    rw [consume_waiting hvalid hne hstep, Outcome.resume_of_no_error rfl]
    exact hboth

/-! ## Fragments -/

/-- A fragment that arrives, and how often the queue is rewound before and after that. -/
structure Arrival where
  fragment : Octets
  rewindsBefore : Nat := 0
  rewindsAfter : Nat := 0

def Arrival.enqueue (arrival : Arrival) (queue : Queue) : Queue :=
  Nat.repeat Queue.rewind arrival.rewindsAfter
    ((Nat.repeat Queue.rewind arrival.rewindsBefore queue).append arrival.fragment)

/-- Everything that arrives. -/
def arriving (arrivals : List Arrival) : Octets :=
  arrivals.flatMap Arrival.fragment

/-- Decode after each arrival, up to the first one that fails. -/
def decodeArrivals (decoder : Decoder) (queue : Queue) : List Arrival → Outcome × Queue
  | [] => ({ decoder, headers := [], rest := queue.unread }, queue)
  | arrival :: arrivals =>
    let decoded := decoder.decode (arrival.enqueue queue)
    match decoded.1.error? with
    | some _ => decoded
    | none =>
      let others := decoded.1.decoder.decodeArrivals decoded.2 arrivals
      ({ others.1 with headers := decoded.1.headers ++ others.1.headers }, others.2)

theorem repeat_rewind_eq_self (hmarked : queue.IsMarked) (count : Nat) :
    Nat.repeat Queue.rewind count queue = queue := by
  induction count with
  | zero => rfl
  | succ count hcount =>
    rw [Nat.repeat, hcount]
    exact Queue.rewind_eq_self hmarked

theorem Arrival.unread_enqueue (arrival : Arrival) (hmarked : queue.IsMarked) :
    (arrival.enqueue queue).unread = queue.unread ++ arrival.fragment := by
  unfold enqueue
  rw [repeat_rewind_eq_self hmarked,
    repeat_rewind_eq_self (Queue.isMarked_append hmarked arrival.fragment),
    Queue.unread_append hmarked]

/-- What fragments lead to is what the whole leads to. After an error the octets left are others,
since a run in fragments does not see those behind the fragment that fails. -/
structure Outcome.Agrees (arrived whole : Outcome) : Prop where
  headers_eq : arrived.headers = whole.headers
  error_eq : arrived.error? = whole.error?
  decoder_eq : arrived.decoder = whole.decoder
  rest_eq : whole.error? = none → arrived.rest = whole.rest

theorem Outcome.Agrees.withHeaders {arrived whole : Outcome} (hagrees : arrived.Agrees whole)
    (headers : List Header) :
    Agrees { arrived with headers := headers ++ arrived.headers }
      { whole with headers := headers ++ whole.headers } :=
  { hagrees with headers_eq := congrArg (headers ++ ·) hagrees.headers_eq }

theorem decodeArrivals_of_error {arrival : Arrival} {arrivals : List Arrival}
    {error : DecodingError}
    (herror : (decoder.decode (arrival.enqueue queue)).1.error? = some error) :
    decoder.decodeArrivals queue (arrival :: arrivals) =
      decoder.decode (arrival.enqueue queue) := by
  rw [decodeArrivals]
  simp only [herror]

theorem decodeArrivals_of_no_error {arrival : Arrival} {arrivals : List Arrival}
    (herror : (decoder.decode (arrival.enqueue queue)).1.error? = none) :
    decoder.decodeArrivals queue (arrival :: arrivals) =
      let decoded := decoder.decode (arrival.enqueue queue)
      let others := decoded.1.decoder.decodeArrivals decoded.2 arrivals
      ({ others.1 with headers := decoded.1.headers ++ others.1.headers }, others.2) := by
  rw [decodeArrivals]
  simp only [herror]

/-- The induction is on the arrivals after the first; what an arrival leaves unread is put in front
of what follows. -/
theorem decodeArrivals_agrees (hvalid : decoder.Valid) (hmarked : queue.IsMarked)
    {arrivals : List Arrival} (hne : arrivals ≠ []) :
    (decoder.decodeArrivals queue arrivals).1.Agrees
        (decoder.consume (queue.unread ++ arriving arrivals)) ∧
      ((decoder.consume (queue.unread ++ arriving arrivals)).error? = none →
        (decoder.decodeArrivals queue arrivals).2.unread =
          (decoder.consume (queue.unread ++ arriving arrivals)).rest) := by
  induction arrivals generalizing decoder queue with
  | nil => exact absurd rfl hne
  | cons arrival arrivals hothers =>
    have hunread := arrival.unread_enqueue hmarked
    have hdecoded : (decoder.decode (arrival.enqueue queue)).1 =
        decoder.consume (queue.unread ++ arrival.fragment) := by
      rw [decode_fst, hunread]
    have hleft : (decoder.decode (arrival.enqueue queue)).2.unread =
        (decoder.consume (queue.unread ++ arrival.fragment)).rest := by
      rw [unread_decode hvalid, hunread]
    have hwhole : decoder.consume (queue.unread ++ arriving (arrival :: arrivals)) =
        (decoder.consume (queue.unread ++ arrival.fragment)).resume (arriving arrivals) := by
      rw [← consume_append hvalid, List.append_assoc]
      rfl
    cases herror : (decoder.decode (arrival.enqueue queue)).1.error? with
    | some error =>
      rw [decodeArrivals_of_error herror, hwhole]
      rw [hdecoded] at herror
      rw [Outcome.resume_of_error herror, hdecoded]
      have hfailed : (decoder.consume (queue.unread ++ arrival.fragment)).error? ≠ none := by
        rw [herror]
        exact Option.some_ne_none error
      exact ⟨⟨rfl, rfl, rfl, fun hnone ↦ absurd hnone hfailed⟩, fun hnone ↦ absurd hnone hfailed⟩
    | none =>
      rw [decodeArrivals_of_no_error herror]
      dsimp only
      cases arrivals with
      | nil =>
        have hsingle : arriving [arrival] = arrival.fragment := List.append_nil arrival.fragment
        rw [hsingle, decodeArrivals, hleft, hdecoded]
        refine ⟨⟨List.append_nil _, ?_, rfl, fun _ ↦ rfl⟩, fun _ ↦ rfl⟩
        rw [hdecoded] at herror
        exact herror.symm
      | cons other arrivals =>
        have hvalidNext : (decoder.decode (arrival.enqueue queue)).1.decoder.Valid :=
          hvalid.run _ _
        have hrest := hothers hvalidNext (isMarked_decode decoder (arrival.enqueue queue))
          (List.cons_ne_nil other arrivals)
        rw [hdecoded] at herror
        rw [hwhole, Outcome.resume_of_no_error herror]
        rw [hleft] at hrest
        rw [hdecoded] at hrest ⊢
        exact ⟨hrest.1.withHeaders _, hrest.2⟩

/-! ## Readers -/

/-- A reader decodes fragments that arrive without rewinds. -/
theorem decodeAll_eq_decodeArrivals (decoder : Decoder) (queue : Queue) (fragments : List Octets) :
    let received := (Reader.mk decoder queue).decodeAll fragments
    let arrived := decoder.decodeArrivals queue (fragments.map fun fragment ↦ { fragment })
    received.error? = arrived.1.error? ∧ received.reader = ⟨arrived.1.decoder, arrived.2⟩ ∧
      (arrived.1.error? = none → received.headers = arrived.1.headers) := by
  induction fragments generalizing decoder queue with
  | nil => exact ⟨rfl, rfl, fun _ ↦ rfl⟩
  | cons fragment fragments hfragments =>
    dsimp only
    rw [List.map_cons]
    have hqueue : Arrival.enqueue { fragment } queue = queue.append fragment := rfl
    cases herror : (decoder.decode (queue.append fragment)).1.error? with
    | some error =>
      rw [← hqueue] at herror
      rw [decodeArrivals_of_error herror]
      rw [hqueue] at herror ⊢
      simp only [Reader.decodeAll, Reader.decode, herror]
      exact ⟨trivial, trivial, fun hnone ↦ by cases hnone⟩
    | none =>
      have hrest := hfragments (decoder.decode (queue.append fragment)).1.decoder
        (decoder.decode (queue.append fragment)).2
      rw [← hqueue] at herror
      rw [decodeArrivals_of_no_error herror]
      rw [hqueue] at herror ⊢
      simp only [Reader.decodeAll, Reader.decode, herror]
      exact ⟨hrest.1, hrest.2.1, fun hnone ↦ congrArg _ (hrest.2.2 hnone)⟩

theorem isMarked_decodeArrivals (hmarked : queue.IsMarked) (arrivals : List Arrival) :
    (decoder.decodeArrivals queue arrivals).2.IsMarked := by
  induction arrivals generalizing decoder queue with
  | nil => exact hmarked
  | cons arrival arrivals hothers =>
    have hnext := isMarked_decode decoder (arrival.enqueue queue)
    unfold decodeArrivals
    dsimp only
    split
    · exact hnext
    · exact hothers hnext

theorem arriving_map (fragments : List Octets) :
    arriving (fragments.map fun fragment ↦ { fragment }) = fragments.flatten := by
  unfold arriving
  rw [List.flatMap_map, ← List.flatMap_id]
  rfl

/-- What a reader has received is what decoding everything at once would have come to. -/
structure Outcome.IsReceivedAs (whole : Outcome) (received : Reader.Reception) : Prop where
  error_eq : received.error? = whole.error?
  decoder_eq : received.reader.decoder = whole.decoder
  isMarked : received.reader.input.IsMarked
  headers_eq : whole.error? = none → received.headers = whole.headers
  unread_eq : whole.error? = none → received.reader.input.unread = whole.rest

theorem isReceivedAs_decodeAll_of_valid {reader : Reader} (hvalid : reader.decoder.Valid)
    (hmarked : reader.input.IsMarked) (hunread : reader.input.unread = [])
    (fragments : List Octets) :
    (reader.decoder.consume fragments.flatten).IsReceivedAs (reader.decodeAll fragments) := by
  have hreceived := decodeAll_eq_decodeArrivals reader.decoder reader.input fragments
  by_cases hnil : fragments = []
  · subst hnil
    exact ⟨rfl, rfl, hmarked, fun _ ↦ rfl, fun _ ↦ hunread⟩
  · have harrivals : (fragments.map fun fragment ↦ { fragment : Arrival }) ≠ [] := by
      simpa using hnil
    have hagrees := decodeArrivals_agrees hvalid hmarked harrivals
    rw [arriving_map, hunread, List.nil_append] at hagrees
    obtain ⟨herror, hreader, hheaders⟩ := hreceived
    constructor
    · exact herror.trans hagrees.1.error_eq
    · rw [hreader]
      exact hagrees.1.decoder_eq
    · rw [hreader]
      exact isMarked_decodeArrivals hmarked _
    · intro hnone
      exact (hheaders (hagrees.1.error_eq.trans hnone)).trans hagrees.1.headers_eq
    · intro hnone
      rw [hreader]
      exact hagrees.2 hnone

theorem isReceivedAs_decodeAll {reader : Reader} (hidle : reader.IsIdle) (fragments : List Octets) :
    (reader.decoder.consume fragments.flatten).IsReceivedAs (reader.decodeAll fragments) :=
  isReceivedAs_decodeAll_of_valid hidle.reachable.valid hidle.isMarked hidle.unread_eq_nil fragments

/-- The whole run ends as the fragments do, and goes on from what they have come to. -/
structure Outcome.Extends (whole : Outcome) (received : Reader.Reception) : Prop where
  error_eq : received.error? = whole.error?
  decoder_eq : received.reader.decoder = whole.decoder
  headers_isPrefix : received.headers <+: whole.headers
  unread_isPrefix : received.reader.input.unread <+: whole.rest

theorem isOrdered_decode (decoder : Decoder) (queue : Queue) :
    (decoder.decode queue).2.IsOrdered :=
  ⟨Nat.le_refl _, Nat.sub_le _ _⟩

/-- The queue may hold octets read before, as long as the mark is not behind the position. -/
theorem extends_decodeAll (hvalid : decoder.Valid) (hordered : queue.IsOrdered)
    {fragments : List Octets} (hne : fragments ≠ []) :
    (decoder.consume (queue.unread ++ fragments.flatten)).Extends
      ((Reader.mk decoder queue).decodeAll fragments) := by
  induction fragments generalizing decoder queue with
  | nil => exact absurd rfl hne
  | cons fragment fragments hfragments =>
    have hunread : (queue.append fragment).unread = queue.unread ++ fragment :=
      hordered.unread_append fragment
    have hleft := unread_decode hvalid (queue.append fragment)
    have hdecoded := decode_fst decoder (queue.append fragment)
    have hwhole : decoder.consume (queue.unread ++ (fragment :: fragments).flatten) =
        (decoder.consume (queue.append fragment).unread).resume fragments.flatten := by
      rw [hunread, ← consume_append hvalid, List.flatten_cons, List.append_assoc]
    rw [hwhole, ← hdecoded]
    cases herror : (decoder.decode (queue.append fragment)).1.error? with
    | some error =>
      simp only [Reader.decodeAll, Reader.decode, herror]
      rw [Outcome.resume_of_error herror]
      refine ⟨herror.symm, rfl, List.nil_prefix, ?_⟩
      rw [hleft, ← hdecoded]
      exact List.prefix_append _ fragments.flatten
    | none =>
      simp only [Reader.decodeAll, Reader.decode, herror]
      by_cases hlast : fragments = []
      · -- The last fragment is the whole, so the run on it need not be taken up again.
        subst hlast
        rw [hdecoded, List.flatten_nil, ← consume_append hvalid, List.append_nil, ← hdecoded]
        rw [← hdecoded] at hleft
        refine ⟨herror.symm, rfl, ?_, ?_⟩
        · simp [Reader.decodeAll]
        · simp [Reader.decodeAll, hleft]
      · have hnext : (decoder.decode (queue.append fragment)).1.decoder.Valid := hvalid.run _ _
        have hrest := hfragments hnext (isOrdered_decode decoder (queue.append fragment)) hlast
        rw [hleft, ← hdecoded] at hrest
        rw [Outcome.resume_of_no_error herror]
        exact ⟨hrest.error_eq, hrest.decoder_eq,
          (List.prefix_append_right_inj _).2 hrest.headers_isPrefix, hrest.unread_isPrefix⟩

/-! ## Independence of fragmentation -/

/-- However octets are cut into fragments, the headers, the error, the decoder and, unless there is
an error, the unread octets are those of decoding them at once. -/
theorem decode_of_fragments (hreachable : decoder.Reachable) (hmarked : queue.IsMarked)
    {arrivals : List Arrival} (hne : arrivals ≠ []) :
    let whole := decoder.decode (queue.append (arriving arrivals))
    let arrived := decoder.decodeArrivals queue arrivals
    let reader : Reader := ⟨decoder, queue⟩
    let received := reader.decodeAll (arrivals.map Arrival.fragment)
    arrived.1.headers = whole.1.headers ∧ arrived.1.error? = whole.1.error? ∧
      arrived.1.decoder = whole.1.decoder ∧
      (whole.1.error? = none → arrived.2.unread = whole.2.unread) ∧
      (received.error? = none →
        (reader.decode (arriving arrivals)).1 = .ok received.headers) := by
  have hvalid := hreachable.valid
  have hwhole : (decoder.decode (queue.append (arriving arrivals))).1 =
      decoder.consume (queue.unread ++ arriving arrivals) := by
    rw [decode_fst, Queue.unread_append hmarked]
  have hunread : (decoder.decode (queue.append (arriving arrivals))).2.unread =
      (decoder.consume (queue.unread ++ arriving arrivals)).rest := by
    rw [unread_decode hvalid, Queue.unread_append hmarked]
  have hagrees := decodeArrivals_agrees hvalid hmarked hne
  dsimp only
  rw [hwhole, hunread]
  refine ⟨hagrees.1.headers_eq, hagrees.1.error_eq, hagrees.1.decoder_eq, hagrees.2, fun hnone ↦ ?_⟩
  -- A reader never rewinds, so its fragments are arrivals of their own.
  have hplain :
      (arrivals.map Arrival.fragment).map (fun fragment ↦ { fragment : Arrival }) ≠ [] := by
    simpa using hne
  have hsame : arriving ((arrivals.map Arrival.fragment).map fun fragment ↦ { fragment }) =
      arriving arrivals := arriving_map _
  have hreceived := decodeAll_eq_decodeArrivals decoder queue (arrivals.map Arrival.fragment)
  have hplainAgrees := (decodeArrivals_agrees hvalid hmarked hplain).1
  rw [hsame] at hplainAgrees
  have herror := hreceived.1.symm.trans hnone
  have hwholeError := hplainAgrees.error_eq.symm.trans herror
  rw [hreceived.2.2 herror, hplainAgrees.headers_eq]
  simp only [Reader.decode, hwhole, hwholeError]

theorem decode_of_fragments_of_cut_literal :
    let arrivals : List Arrival :=
      [{ fragment := [0x40, 0x01] }, { fragment := [], rewindsBefore := 2 },
        { fragment := [0x61, 0x01, 0x62, 0xbe], rewindsAfter := 1 }]
    ((ofSettings { }).decodeArrivals .empty arrivals).1.headers =
      ((ofSettings { }).decode (Queue.empty.append (arriving arrivals))).1.headers :=
  (decode_of_fragments (.ofSettings { }) Queue.isMarked_empty (List.cons_ne_nil _ _)).1

end HeaderCompression.Decoder
