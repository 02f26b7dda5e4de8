import HeaderCompression.Encoder
import HeaderCompression.Proofs.Decoder.Conformance
import HeaderCompression.Proofs.Decoder.Resumption
import HeaderCompression.Proofs.Wire.ShortestForm

/-!
# Size updates that are received

A capacity takes the decoder one step or two, with the same consequences. So a size update on the
wire does what a call does that asks for the same capacity, refusals included, up to the largest
capacity that can be said. A larger one is refused before it is known.
-/

namespace HeaderCompression

open Block Octets Table Wire

/-! ## Octets of a size update -/

theorem Wire.HeaderRepresentation.exists_encode_sizeUpdate_eq_cons (mode : HuffmanMode)
    (capacity : Nat) :
    ∃ octet octets, (sizeUpdate capacity).encode mode = octet :: octets ∧
      Opening.ofOctet octet = .sizeUpdate := by
  obtain ⟨low, octets, hlow, hencode⟩ := PrefixedInteger.exists_encode_eq_cons
    Opening.sizeUpdate.mask Opening.sizeUpdate.width capacity
  have hbits := Opening.ofBits_mask .sizeUpdate hlow
  rw [Opening.ofBits_ofNat] at hbits
  exact ⟨_, octets, hencode, congrArg Prod.fst hbits⟩

/-- The largest capacity that can be said has a continuation of 31 ones. -/
theorem Wire.HeaderRepresentation.read_sizeUpdate {capacity : Nat}
    (hrange : capacity ≤ Bits.values 31 + 30) (mode : HuffmanMode) (rest : Octets) :
    PrefixedInteger.read Opening.sizeUpdate.width ((sizeUpdate capacity).encode mode ++ rest) =
      .complete capacity rest := by
  have hvalues : PrefixedInteger.continuationValues = Bits.values 31 := rfl
  have hones : Bits.ones Opening.sizeUpdate.width = 31 := rfl
  exact PrefixedInteger.read_encode (by decide) (by decide) (by omega) rest

theorem Wire.HeaderRepresentation.read_sizeUpdate_of_lt {capacity : Nat}
    (hrange : Bits.values 31 + 30 < capacity) (mode : HuffmanMode) (rest : Octets) :
    ∃ left, PrefixedInteger.read Opening.sizeUpdate.width
      ((sizeUpdate capacity).encode mode ++ rest) = .failed .integerOverflow left := by
  have hvalues : PrefixedInteger.continuationValues = Bits.values 31 := rfl
  have hones : Bits.ones Opening.sizeUpdate.width = 31 := rfl
  exact PrefixedInteger.read_encode_of_le (by decide) (by decide) (by omega) rest

/-! ## Indexes and capacities -/

namespace Decoder

variable {decoder next : Decoder} {header? : Option Header} {rest : Octets} {capacity : Nat}

/-- Every representation that an index or a capacity completes or continues sets the stage. -/
theorem indexKnown_withStage (decoder : Decoder) (stage : Stage) (opening : Opening) (value : Nat) :
    ({ decoder with stage } : Decoder).indexKnown opening value =
      decoder.indexKnown opening value := by
  unfold indexKnown
  cases opening with
  | indexed => rfl
  | literal indexing => rfl
  | sizeUpdate =>
    dsimp only
    unfold resize
    split <;> rfl

/-- The first octet does not hold the whole of an index or a capacity. -/
theorem step_of_lowBits?_eq_none (hboundary : decoder.stage = .boundary) {octet : UInt8}
    (hlow : PrefixedInteger.lowBits? (Opening.ofOctet octet).width octet = none)
    (octets : Octets) :
    decoder.step (octet :: octets) =
      .advanced { decoder with stage := .index (Opening.ofOctet octet) } none octets := by
  have hopening : decoder.openingKnown octet =
      .ok ({ decoder with stage := .index (Opening.ofOctet octet) }, none) := by
    simp only [openingKnown, hlow, enter]
  rw [step, hboundary]
  exact stepWith_of_complete rfl hopening

/-- An index or a capacity takes one step or two, with the same consequences. -/
theorem consume_of_read (hvalid : decoder.Valid) (hboundary : decoder.stage = .boundary)
    {octet : UInt8} {octets : Octets} {value : Nat}
    (hread : PrefixedInteger.read (Opening.ofOctet octet).width (octet :: octets) =
      .complete value rest)
    (hknown : decoder.indexKnown (Opening.ofOctet octet) value = .ok (next, header?)) :
    decoder.consume (octet :: octets) = (next.consume rest).after header? := by
  rw [PrefixedInteger.read] at hread
  cases hlow : PrefixedInteger.lowBits? (Opening.ofOctet octet).width octet with
  | some low =>
    rw [hlow] at hread
    obtain ⟨rfl, rfl⟩ := Reading.complete.inj hread
    have hopening : decoder.openingKnown octet = .ok (next, header?) := by
      simp only [openingKnown, hlow, hknown]
    have hstep : decoder.step (octet :: octets) = .advanced next header? octets := by
      rw [step, hboundary]
      exact stepWith_of_complete rfl hopening
    exact consume_advanced hvalid hstep
  | none =>
    rw [hlow] at hread
    obtain ⟨more, hmore, rfl⟩ := Reading.map_eq_complete_iff.1 hread
    have hfirst := step_of_lowBits?_eq_none hboundary hlow octets
    have hsecond : step { decoder with stage := .index (Opening.ofOctet octet) } octets =
        .advanced next header? rest := by
      apply stepWith_of_complete hmore
      rw [indexKnown_withStage, hknown]
    rw [consume_advanced hvalid hfirst]
    exact consume_advanced (hvalid.step_advanced hfirst) hsecond

/-- An index or a capacity that fails has changed nothing but the stage. -/
theorem consume_of_read_failed (hvalid : decoder.Valid) (hboundary : decoder.stage = .boundary)
    {octet : UInt8} {octets : Octets} {error : DecodingError}
    (hread : readWith (PrefixedInteger.read (Opening.ofOctet octet).width)
      (decoder.indexKnown (Opening.ofOctet octet)) (octet :: octets) = .failed error rest) :
    ∃ stage, decoder.consume (octet :: octets) =
      { decoder := { decoder with stage }, headers := [], rest, error? := some error } := by
  rw [readWith, PrefixedInteger.read] at hread
  cases hlow : PrefixedInteger.lowBits? (Opening.ofOctet octet).width octet with
  | some low =>
    rw [hlow] at hread
    obtain ⟨hknown, rfl⟩ := Reading.ofExcept_inj _ (.error error) hread
    have hstep : decoder.step (octet :: octets) = .failed error octets := by
      have hopening : decoder.openingKnown octet = .error error := by
        simp only [openingKnown, hlow, hknown]
      rw [step, hboundary]
      simp only [stepWith, first, hopening]
    refine ⟨.boundary, ?_⟩
    rw [consume_failed hvalid hstep, ← hboundary]
  | none =>
    rw [hlow] at hread
    have hfirst := step_of_lowBits?_eq_none hboundary hlow octets
    have hsecond : step { decoder with stage := .index (Opening.ofOctet octet) } octets =
        .failed error rest := by
      have hmore : readWith PrefixedInteger.readContinuation
          (fun more ↦ indexKnown { decoder with stage := .index (Opening.ofOctet octet) }
            (Opening.ofOctet octet) (Bits.ones (Opening.ofOctet octet).width + more)) octets =
          .failed error rest := by
        rw [readWith]
        simp only [indexKnown_withStage]
        rwa [Reading.map_eq_andThen, Reading.andThen_andThen] at hread
      rw [step]
      dsimp only
      rw [stepWith_eq, hmore]
      rfl
    refine ⟨.index (Opening.ofOctet octet), ?_⟩
    rw [consume_advanced hvalid hfirst, consume_failed (hvalid.step_advanced hfirst) hsecond]
    rfl

/-! ## Size updates -/

/-- A size update that can be said and is accepted changes the capacity and nothing else. -/
theorem consume_sizeUpdate_append (hvalid : decoder.Valid) (hboundary : decoder.stage = .boundary)
    (hcapacity : capacity ≤ decoder.tableSizeLimit) (hrange : capacity ≤ Bits.values 31 + 30)
    (mode : HuffmanMode) (rest : Octets) :
    decoder.consume ((HeaderRepresentation.sizeUpdate capacity).encode mode ++ rest) =
      consume { decoder with table := decoder.table.setCapacity capacity } rest := by
  have hread := HeaderRepresentation.read_sizeUpdate hrange mode rest
  obtain ⟨octet, octets, hencode, hopening⟩ :=
    HeaderRepresentation.exists_encode_sizeUpdate_eq_cons mode capacity
  have hknown : decoder.indexKnown .sizeUpdate capacity =
      .ok ({ decoder with table := decoder.table.setCapacity capacity, stage := .boundary },
        none) := by
    rw [indexKnown, resize, if_neg (Nat.not_lt.2 hcapacity)]
    rfl
  rw [hencode, List.cons_append] at hread ⊢
  rw [← hopening] at hread hknown
  rw [consume_of_read hvalid hboundary hread hknown, ← hboundary]
  rfl

/-- Size updates one after the other change the capacity as often. -/
theorem consume_sizeUpdates (hvalid : decoder.Valid) (hboundary : decoder.stage = .boundary)
    {capacities : List Nat}
    (hcapacities : ∀ capacity ∈ capacities,
      capacity ≤ decoder.tableSizeLimit ∧ capacity ≤ Bits.values 31 + 30) (mode : HuffmanMode) :
    decoder.consume (capacities.flatMap fun capacity ↦
        (HeaderRepresentation.sizeUpdate capacity).encode mode) =
      { decoder :=
          { decoder with table := capacities.foldl DynamicTable.setCapacity decoder.table }
        headers := []
        rest := [] } := by
  induction capacities generalizing decoder with
  | nil => rfl
  | cons capacity capacities hothers =>
    obtain ⟨⟨hlimit, hrange⟩, hlater⟩ := List.forall_mem_cons.1 hcapacities
    rw [List.flatMap_cons, consume_sizeUpdate_append hvalid hboundary hlimit hrange]
    exact hothers { hvalid with table := hvalid.table.setCapacity capacity } hboundary hlater

theorem tableSizeLimit_resize {resized : Decoder}
    (haccepted : decoder.resize capacity = .ok resized) :
    resized.tableSizeLimit = decoder.tableSizeLimit := by
  unfold resize at haccepted
  split at haccepted
  · cases haccepted
  · rw [← Except.ok.inj haccepted]

theorem consume_sizeUpdate_of_accepted (hvalid : decoder.Valid)
    (hboundary : decoder.stage = .boundary) (hrange : capacity ≤ Bits.values 31 + 30)
    {resized : Decoder} (haccepted : decoder.resize capacity = .ok resized) (mode : HuffmanMode) :
    decoder.consume ((HeaderRepresentation.sizeUpdate capacity).encode mode) =
      { decoder := resized, headers := [], rest := [] } := by
  unfold resize at haccepted
  split at haccepted
  · cases haccepted
  · rename_i hcapacity
    obtain rfl := Except.ok.inj haccepted
    have happend := consume_sizeUpdate_append hvalid hboundary (Nat.le_of_not_lt hcapacity) hrange
      mode []
    rwa [List.append_nil, consume_nil] at happend

/-- A size update that is refused changes nothing but the stage. -/
theorem consume_sizeUpdate_of_failed (hvalid : decoder.Valid)
    (hboundary : decoder.stage = .boundary) {mode : HuffmanMode} {error : DecodingError}
    (hread : readWith (PrefixedInteger.read Opening.sizeUpdate.width)
      (decoder.indexKnown .sizeUpdate) ((HeaderRepresentation.sizeUpdate capacity).encode mode) =
        .failed error rest) :
    ∃ stage, decoder.consume ((HeaderRepresentation.sizeUpdate capacity).encode mode) =
      { decoder := { decoder with stage }, headers := [], rest, error? := some error } := by
  obtain ⟨octet, octets, hencode, hopening⟩ :=
    HeaderRepresentation.exists_encode_sizeUpdate_eq_cons mode capacity
  rw [hencode, ← hopening] at hread
  rw [hencode]
  exact consume_of_read_failed hvalid hboundary hread

theorem consume_sizeUpdate_of_refused (hvalid : decoder.Valid)
    (hboundary : decoder.stage = .boundary) (hrange : capacity ≤ Bits.values 31 + 30)
    {error : DecodingError} (hrefused : decoder.resize capacity = .error error)
    (mode : HuffmanMode) :
    ∃ stage, decoder.consume ((HeaderRepresentation.sizeUpdate capacity).encode mode) =
      { decoder := { decoder with stage }, headers := [], rest := [], error? := some error } := by
  have hread := HeaderRepresentation.read_sizeUpdate hrange mode []
  have hknown : decoder.indexKnown .sizeUpdate capacity = .error error := by
    rw [indexKnown, hrefused]
    rfl
  rw [List.append_nil] at hread
  apply consume_sizeUpdate_of_failed hvalid hboundary
  rw [readWith, hread, Reading.andThen_complete, hknown, Reading.ofExcept_error]

theorem consume_sizeUpdate_of_lt (hvalid : decoder.Valid) (hboundary : decoder.stage = .boundary)
    (hrange : Bits.values 31 + 30 < capacity) (mode : HuffmanMode) :
    ∃ stage rest, decoder.consume ((HeaderRepresentation.sizeUpdate capacity).encode mode) =
      { decoder := { decoder with stage }, headers := [], rest,
        error? := some .integerOverflow } := by
  obtain ⟨left, hread⟩ := HeaderRepresentation.read_sizeUpdate_of_lt hrange mode []
  rw [List.append_nil] at hread
  have hfailed : readWith (PrefixedInteger.read Opening.sizeUpdate.width)
      (decoder.indexKnown .sizeUpdate) ((HeaderRepresentation.sizeUpdate capacity).encode mode) =
        .failed .integerOverflow left := by
    rw [readWith, hread, Reading.andThen_failed]
  obtain ⟨stage, hconsume⟩ := consume_sizeUpdate_of_failed hvalid hboundary hfailed
  exact ⟨stage, left, hconsume⟩

/-- A size that can be said is accepted or refused as a call is that asks for it, and a larger one
is too large an integer. -/
theorem consume_resize (hvalid : decoder.Valid) (hboundary : decoder.stage = .boundary)
    (encoder : Encoder) (size : Nat) :
    ∃ after rest error?, decoder.consume (encoder.resize size).1 =
        { decoder := after, headers := [], rest, error? } ∧
      after.tableSizeLimit = decoder.tableSizeLimit ∧
      (size ≤ 2 ^ 31 + 30 →
        rest = [] ∧
          (∀ resized, decoder.resize size = .ok resized → error? = none ∧ after = resized) ∧
          ∀ error, decoder.resize size = .error error →
            error? = some error ∧ after.table = decoder.table) ∧
      (2 ^ 31 + 30 < size → error? = some .integerOverflow ∧ after.table = decoder.table) := by
  have hvalues : Bits.values 31 = 2 ^ 31 := rfl
  rcases Nat.lt_or_ge (2 ^ 31 + 30) size with hlarge | hrange
  · obtain ⟨stage, rest, hconsume⟩ :=
      consume_sizeUpdate_of_lt hvalid hboundary (hvalues ▸ hlarge) encoder.huffman
    refine ⟨_, _, _, hconsume, rfl, fun hle ↦ ?_, fun _ ↦ ⟨rfl, rfl⟩⟩
    exact absurd hle (Nat.not_le.2 hlarge)
  · have hlarge : ¬2 ^ 31 + 30 < size := Nat.not_lt.2 hrange
    cases hresize : decoder.resize size with
    | ok resized =>
      have hconsume :=
        consume_sizeUpdate_of_accepted hvalid hboundary hrange hresize encoder.huffman
      refine ⟨_, _, _, hconsume, tableSizeLimit_resize hresize, fun _ ↦ ⟨rfl, ?_, ?_⟩,
        fun hlt ↦ absurd hlt hlarge⟩
      · intro other hother
        exact ⟨rfl, Except.ok.inj hother⟩
      · intro error hrefused
        cases hrefused
    | error error =>
      obtain ⟨stage, hconsume⟩ :=
        consume_sizeUpdate_of_refused hvalid hboundary hrange hresize encoder.huffman
      refine ⟨_, _, _, hconsume, rfl, fun _ ↦ ⟨rfl, ?_, ?_⟩, fun hlt ↦ absurd hlt hlarge⟩
      · intro resized haccepted
        cases haccepted
      · intro other hother
        exact ⟨congrArg some (Except.error.inj hother), rfl⟩

/-- A size update that arrives in any fragments does what a call does that asks for the same size,
if the size can be said. The size is accepted or refused in the same way, every octet is taken, no
header is delivered, and the decoder holds the same table under the same limit. A larger size is
refused as too large an integer, and the table stays as it was. -/
theorem size_update_agrees_with_resize (encoder : Encoder) (hreachable : decoder.Reachable)
    (hboundary : decoder.stage = .boundary) {queue : Queue} (hordered : queue.IsOrdered)
    (hunread : queue.unread = []) (size : Nat) {fragments : List Octets}
    (hfragments : fragments.flatten = (encoder.resize size).1) :
    let received := (Reader.mk decoder queue).decodeAll fragments
    let after := received.reader.decoder
    received.headers = [] ∧ after.tableSizeLimit = decoder.tableSizeLimit ∧
      (size ≤ 2 ^ 31 + 30 →
        received.reader.input.unread = [] ∧
          (∀ resized, decoder.resize size = .ok resized →
            received.error? = none ∧ after = resized) ∧
          ∀ error, decoder.resize size = .error error →
            received.error? = some error ∧ after.table = decoder.table) ∧
      (2 ^ 31 + 30 < size →
        received.error? = some .integerOverflow ∧ after.table = decoder.table) := by
  intro received after
  have hvalid := hreachable.valid
  have hne : fragments ≠ [] := by
    rintro rfl
    obtain ⟨octet, octets, hencode, -⟩ :=
      HeaderRepresentation.exists_encode_sizeUpdate_eq_cons encoder.huffman size
    rw [Encoder.resize, hencode] at hfragments
    cases hfragments
  have hextends : (decoder.consume (encoder.resize size).1).Extends received := by
    have hall := extends_decodeAll hvalid hordered hne
    rwa [hunread, List.nil_append, hfragments] at hall
  obtain ⟨whole, rest, error?, hconsume, hlimit, hsaid, hunsaid⟩ :=
    consume_resize hvalid hboundary encoder size
  rw [hconsume] at hextends
  obtain ⟨herror, hafter, hheaders, hleft⟩ := hextends
  have hdecoder : after = whole := hafter
  rw [herror, hdecoder]
  refine ⟨List.prefix_nil.1 hheaders, hlimit, fun hrange ↦ ?_, hunsaid⟩
  obtain ⟨hrest, hanswered⟩ := hsaid hrange
  exact ⟨List.prefix_nil.1 (hrest ▸ hleft), hanswered⟩

/-- One more than the largest size allowed, in three octets behind two that were passed over. -/
theorem size_update_agrees_with_resize_of_refused :
    let decoder := ofSettings { }
    let queue := ((Queue.ofOctets [1, 2]).skip 2).2
    let fragments : List Octets := [[0x3f], [], [0xe2, 0x1f], []]
    decoder.Reachable ∧ decoder.stage = .boundary ∧ queue.IsOrdered ∧ queue.unread = [] ∧
      fragments.flatten = ((Encoder.ofSettings { }).resize 4097).1 ∧
      ((Reader.mk decoder queue).decodeAll fragments).error? =
        some (.capacityTooLarge 4097 4096) ∧
      ((Reader.mk decoder queue).decodeAll fragments).reader.decoder.table = decoder.table ∧
      ((Reader.mk decoder queue).decodeAll fragments).reader.input.unread = [] := by
  intro decoder queue fragments
  have hreachable : decoder.Reachable := .ofSettings { }
  have hordered : queue.IsOrdered := ⟨by decide, by decide⟩
  have hfragments : fragments.flatten = ((Encoder.ofSettings { }).resize 4097).1 := by
    decide +kernel
  obtain ⟨-, -, hsaid, -⟩ := size_update_agrees_with_resize (.ofSettings { }) hreachable rfl
    hordered rfl 4097 hfragments
  obtain ⟨hunread, -, hrefused⟩ := hsaid (by decide)
  have hresize : decoder.resize 4097 = .error (.capacityTooLarge 4097 4096) := rfl
  obtain ⟨herror, htable⟩ := hrefused _ hresize
  exact ⟨hreachable, rfl, hordered, rfl, hfragments, herror, htable, hunread⟩

end Decoder

end HeaderCompression
