import HeaderCompression.Proofs.Decoder.Conformance
import HeaderCompression.Proofs.Decoder.Resumption

/-!
# Truncation and the dynamic table

A decoder whose budget is limited follows one whose budget is not, element by element. Where the
limited decoder passes over a string, the other one keeps it, and what the limited decoder has done
to its table is what the literal will do to the table of the other one. In between the tables may
differ: a literal too large for the table empties the one early and the other late.
-/

namespace HeaderCompression

open Octets Table Wire

/-! ## Literals that are passed over -/

namespace ListDecoder

/-- The decoder `passed` has already done what a literal of at least `length` octets does. -/
def Anticipates (indexing : Indexing) (length : Nat) (kept passed : ListDecoder) : Prop :=
  match indexing with
  | .incremental =>
    kept.table.capacity < length + Field.overhead ∧
      passed = { kept with table := kept.table.clear }
  | _ => passed = kept

variable {indexing : Indexing} {length : Nat} {kept passed : ListDecoder}

theorem Anticipates.mono (hanticipates : Anticipates indexing length kept passed) {longer : Nat}
    (hlonger : length ≤ longer) : Anticipates indexing longer kept passed := by
  cases indexing with
  | without => exact hanticipates
  | never => exact hanticipates
  | incremental =>
    have hcapacity := hanticipates.1
    exact ⟨by omega, hanticipates.2⟩

/-- A field that is too large empties the table. -/
theorem Anticipates.eq_insert (hanticipates : Anticipates indexing length kept passed)
    {field : Field} (hlength : length ≤ field.length) : passed = kept.insert indexing field := by
  cases indexing with
  | without => exact hanticipates
  | never => exact hanticipates
  | incremental =>
    obtain ⟨hcapacity, rfl⟩ := hanticipates
    have hlarge : kept.table.capacity < field.size := by
      unfold Field.size
      omega
    rw [insert, ListTable.add, if_pos hlarge]

end ListDecoder

namespace Decoder

variable {kept passed next : Decoder} {header? : Option Header} {unread rest : Octets}

/-! ## The tables behind an element -/

theorem listDecoder_deliver (decoder : Decoder) (header : Header) :
    (decoder.deliver header).1.listDecoder = decoder.listDecoder := by
  unfold deliver
  split <;> rfl

theorem stage_deliver (decoder : Decoder) (header : Header) :
    (decoder.deliver header).1.stage = .boundary := by
  unfold deliver
  split <;> rfl

theorem listDecoder_deliverLiteral {decoder : Decoder} (hvalid : decoder.Valid)
    (indexing : Indexing) (field : Field) :
    (decoder.deliverLiteral indexing field).1.listDecoder =
      decoder.listDecoder.insert indexing field := by
  have hdelivered := hvalid.deliver { field, sensitive := indexing = .never }
  have hsame := listDecoder_deliver decoder { field, sensitive := indexing = .never }
  unfold deliverLiteral
  cases indexing with
  | without => exact hsame
  | never => exact hsame
  | incremental =>
    rw [ListDecoder.insert, ← hsame]
    unfold listDecoder
    dsimp only
    rw [hdelivered.table.listing_add]

theorem stage_deliverLiteral (decoder : Decoder) (indexing : Indexing) (field : Field) :
    (decoder.deliverLiteral indexing field).1.stage = .boundary := by
  have hstage := stage_deliver decoder { field, sensitive := indexing = .never }
  unfold deliverLiteral
  cases indexing <;> exact hstage

/-- A literal is passed over only once the table is what the literal would make of it. -/
theorem passesOver_cases {decoder : Decoder} (hvalid : decoder.Valid) (indexing : Indexing)
    (length : Nat) :
    ((decoder.passesOver indexing length).1 = false ∧
        (decoder.passesOver indexing length).2.listDecoder = decoder.listDecoder) ∨
      ((decoder.passesOver indexing length).1 = true ∧
        ListDecoder.Anticipates indexing length decoder.listDecoder
          (decoder.passesOver indexing length).2.listDecoder) := by
  unfold passesOver
  split
  · exact .inl ⟨rfl, rfl⟩
  · cases indexing with
    | without => exact .inr ⟨rfl, rfl⟩
    | never => exact .inr ⟨rfl, rfl⟩
    | incremental =>
      dsimp only
      split
      · rename_i hcapacity
        refine .inr ⟨rfl, hcapacity, ?_⟩
        unfold listDecoder
        rw [← hvalid.table.listing_clear]
      · exact .inl ⟨rfl, rfl⟩

/-! ## Following -/

/-- The decoder `passed` is where `kept` is, or passes over what `kept` keeps. -/
inductive Follows (kept passed : Decoder) : Prop
  | same (hstage : passed.stage = kept.stage) (htable : passed.listDecoder = kept.listDecoder)
  | skippedName (indexing : Indexing) (huffman : Bool) (length : Nat)
    (hkept : kept.stage = .name indexing huffman length)
    (hpassed : passed.stage = .skippedName indexing length)
    (htable : ListDecoder.Anticipates indexing (StringLiteral.minimumDecodedLength huffman length)
      kept.listDecoder passed.listDecoder)
  | namelessValue (indexing : Indexing) (name : Octets) (part : LengthPart)
    (hkept : kept.stage = .valueLength indexing (some name) part)
    (hpassed : passed.stage = .valueLength indexing none part)
    (htable : ListDecoder.Anticipates indexing name.length kept.listDecoder passed.listDecoder)
  | skippedValue (indexing : Indexing) (name : Octets) (huffman : Bool) (length : Nat)
    (hkept : kept.stage = .value indexing name huffman length)
    (hpassed : passed.stage = .skippedValue length)
    (htable : ListDecoder.Anticipates indexing
      (name.length + StringLiteral.minimumDecodedLength huffman length)
      kept.listDecoder passed.listDecoder)

/-- If the one element leads somewhere, the other one follows. -/
def Transition.IsFollowedBy (first second : Transition) : Prop :=
  ∀ next header?, first = .ok (next, header?) →
    ∃ follower followerHeader?, second = .ok (follower, followerHeader?) ∧ next.Follows follower

theorem Transition.isFollowedBy_ok {first second : Decoder × Option Header}
    (hfollows : first.1.Follows second.1) : Transition.IsFollowedBy (.ok first) (.ok second) := by
  intro next header? hnext
  obtain rfl := Except.ok.inj hnext
  exact ⟨second.1, second.2, rfl, hfollows⟩

theorem Transition.isFollowedBy_error (error : DecodingError) (second : Transition) :
    Transition.IsFollowedBy (.error error) second := by
  intro other otherHeader? hother
  cases hother

theorem Transition.isFollowedBy_bind {α : Type} (result : Except DecodingError α)
    {first second : α → Transition} (hboth : ∀ value, (first value).IsFollowedBy (second value)) :
    Transition.IsFollowedBy (result >>= first) (result >>= second) := by
  cases result with
  | error error => exact Transition.isFollowedBy_error error _
  | ok value => exact hboth value

theorem enter_isFollowedBy (htable : passed.listDecoder = kept.listDecoder) (stage : Stage) :
    (kept.enter stage).IsFollowedBy (passed.enter stage) :=
  Transition.isFollowedBy_ok (.same rfl htable)

theorem deliver_isFollowedBy (htable : passed.listDecoder = kept.listDecoder) (header : Header) :
    Transition.IsFollowedBy (.ok (kept.deliver header)) (.ok (passed.deliver header)) := by
  refine Transition.isFollowedBy_ok (.same ?_ ?_)
  · rw [stage_deliver, stage_deliver]
  · rw [listDecoder_deliver, listDecoder_deliver, htable]

theorem deliverLiteral_isFollowedBy (hkept : kept.Valid) (hpassed : passed.Valid)
    (htable : passed.listDecoder = kept.listDecoder) (indexing : Indexing) (field : Field) :
    Transition.IsFollowedBy (.ok (kept.deliverLiteral indexing field))
      (.ok (passed.deliverLiteral indexing field)) := by
  refine Transition.isFollowedBy_ok (.same ?_ ?_)
  · rw [stage_deliverLiteral, stage_deliverLiteral]
  · rw [listDecoder_deliverLiteral hkept, listDecoder_deliverLiteral hpassed, htable]

/-- Where a literal ends, a table that anticipated it is the table with the literal. -/
theorem deliverLiteral_isFollowedBy_boundary (hkept : kept.Valid) {indexing : Indexing}
    {length : Nat} {field : Field}
    (htable : ListDecoder.Anticipates indexing length kept.listDecoder passed.listDecoder)
    (hlength : length ≤ field.length) :
    Transition.IsFollowedBy (.ok (kept.deliverLiteral indexing field))
      (passed.enter .boundary) := by
  refine Transition.isFollowedBy_ok (.same ?_ ?_)
  · rw [stage_deliverLiteral]
  · rw [listDecoder_deliverLiteral hkept, ← htable.eq_insert hlength]
    rfl

/-! ## One rule for each element -/

theorem resize_isFollowedBy (hkept : kept.Valid) (hpassed : passed.Valid)
    (htable : passed.listDecoder = kept.listDecoder) (capacity : Nat) :
    Transition.IsFollowedBy (kept.resize capacity >>= fun resized ↦ resized.enter .boundary)
      (passed.resize capacity >>= fun resized ↦ resized.enter .boundary) := by
  have hlimit : passed.tableSizeLimit = kept.tableSizeLimit :=
    congrArg ListDecoder.tableSizeLimit htable
  have hlisting : passed.table.listing = kept.table.listing := congrArg ListDecoder.table htable
  unfold resize
  rw [hlimit]
  split
  · exact Transition.isFollowedBy_error _ _
  · refine Transition.isFollowedBy_ok (.same rfl ?_)
    unfold listDecoder
    dsimp only
    rw [hkept.table.listing_setCapacity, hpassed.table.listing_setCapacity, hlisting]

theorem indexKnown_isFollowedBy (hkept : kept.Valid) (hpassed : passed.Valid)
    (htable : passed.listDecoder = kept.listDecoder) (opening : Opening) (value : Nat) :
    (kept.indexKnown opening value).IsFollowedBy (passed.indexKnown opening value) := by
  unfold indexKnown
  cases opening with
  | sizeUpdate => exact resize_isFollowedBy hkept hpassed htable value
  | indexed =>
    dsimp only
    rw [resolve_eq hkept, resolve_eq hpassed, htable]
    exact Transition.isFollowedBy_bind _ fun field ↦ deliver_isFollowedBy htable { field }
  | literal indexing =>
    dsimp only
    rw [resolve_eq hkept, resolve_eq hpassed, htable]
    split
    · exact enter_isFollowedBy htable _
    · exact Transition.isFollowedBy_bind _ fun field ↦ enter_isFollowedBy htable _

theorem openingKnown_isFollowedBy (hkept : kept.Valid) (hpassed : passed.Valid)
    (htable : passed.listDecoder = kept.listDecoder) (octet : UInt8) :
    (kept.openingKnown octet).IsFollowedBy (passed.openingKnown octet) := by
  unfold openingKnown
  dsimp only
  split
  · exact indexKnown_isFollowedBy hkept hpassed htable _ _
  · exact enter_isFollowedBy htable _

theorem nameKnown_isFollowedBy (htable : passed.listDecoder = kept.listDecoder)
    (indexing : Indexing) (name : Octets) :
    (kept.nameKnown indexing name).IsFollowedBy (passed.nameKnown indexing name) := by
  unfold nameKnown
  split
  · exact Transition.isFollowedBy_error _ _
  · exact enter_isFollowedBy htable _

theorem nameLengthKnown_isFollowedBy (hpassed : passed.Valid)
    (hlimit : Size.largest ≤ kept.budget.limit) (htable : passed.listDecoder = kept.listDecoder)
    (indexing : Indexing) (huffman : Bool) (length : Nat) :
    (kept.nameLengthKnown indexing huffman length).IsFollowedBy
      (passed.nameLengthKnown indexing huffman length) := by
  unfold nameLengthKnown
  split
  · exact Transition.isFollowedBy_error _ _
  · rw [passesOver_eq hlimit]
    dsimp only
    rcases passesOver_cases hpassed indexing
        (StringLiteral.minimumDecodedLength huffman length) with
      ⟨hkeeps, hsame⟩ | ⟨hskips, hanticipates⟩
    · rw [hkeeps]
      exact enter_isFollowedBy (hsame.trans htable) _
    · rw [hskips]
      rw [htable] at hanticipates
      exact Transition.isFollowedBy_ok (.skippedName indexing huffman length rfl rfl hanticipates)

/-- The value of a literal that is passed over is passed over. -/
theorem skipValue_follows (hkept : kept.Valid) (hlimit : Size.largest ≤ kept.budget.limit)
    {indexing : Indexing} {name : Octets} {huffman : Bool} {length : Nat}
    (htable : ListDecoder.Anticipates indexing
      (name.length + StringLiteral.minimumDecodedLength huffman length)
      kept.listDecoder passed.listDecoder) :
    (kept.valueLengthKnown indexing (some name) huffman length).IsFollowedBy
      (passed.skipValue length) := by
  unfold valueLengthKnown skipValue
  dsimp only
  rw [passesOver_eq hlimit]
  by_cases hzero : length = 0
  · have hleast : StringLiteral.minimumDecodedLength huffman 0 = 0 := by
      cases huffman <;> rfl
    rw [hzero, hleast] at htable
    rw [if_neg Bool.false_ne_true, if_pos hzero, if_pos hzero]
    exact deliverLiteral_isFollowedBy_boundary hkept htable (Nat.le_refl _)
  · rw [if_neg Bool.false_ne_true, if_neg hzero, if_neg hzero]
    exact Transition.isFollowedBy_ok (.skippedValue indexing name huffman length rfl rfl htable)

theorem valueLengthKnown_isFollowedBy (hkept : kept.Valid) (hpassed : passed.Valid)
    (hlimit : Size.largest ≤ kept.budget.limit) (htable : passed.listDecoder = kept.listDecoder)
    (indexing : Indexing) (name : Octets) (huffman : Bool) (length : Nat) :
    (kept.valueLengthKnown indexing (some name) huffman length).IsFollowedBy
      (passed.valueLengthKnown indexing (some name) huffman length) := by
  have hdecided := hpassed.passesOver indexing
    (name.length + StringLiteral.minimumDecodedLength huffman length)
  rcases passesOver_cases hpassed indexing
      (name.length + StringLiteral.minimumDecodedLength huffman length) with
    ⟨hkeeps, hsame⟩ | ⟨hskips, hanticipates⟩
  · unfold valueLengthKnown
    dsimp only
    rw [passesOver_eq hlimit, hkeeps, if_neg Bool.false_ne_true, if_neg Bool.false_ne_true]
    split
    · exact deliverLiteral_isFollowedBy hkept hdecided (hsame.trans htable) _ _
    · exact enter_isFollowedBy (hsame.trans htable) _
  · rw [htable] at hanticipates
    have hskipped := skipValue_follows hkept hlimit hanticipates
    have hpassedOver : passed.valueLengthKnown indexing (some name) huffman length =
        (passed.passesOver indexing
          (name.length + StringLiteral.minimumDecodedLength huffman length)).2.skipValue
            length := by
      rw [valueLengthKnown, hskips, if_pos rfl]
    rw [hpassedOver]
    exact hskipped

/-! ## Steps -/

/-- A step of `kept` that goes on is a step of `passed` that takes the same octets. -/
def IsFollowedOn (passed : Decoder) (unread : Octets) (next : Decoder) (rest : Octets) : Prop :=
  ∃ follower followerHeader?, passed.step unread = .advanced follower followerHeader? rest ∧
    next.Follows follower

theorem stepWith_follows {α : Type} {reader : Octets → Reading α} {first second : α → Transition}
    (hpassed : passed.step unread = passed.stepWith unread reader second)
    (hboth : ∀ element, (first element).IsFollowedBy (second element))
    (hstep : kept.stepWith unread reader first = .advanced next header? rest) :
    passed.IsFollowedOn unread next rest := by
  obtain ⟨element, hread, hfirst⟩ := exists_of_stepWith_advanced hstep
  obtain ⟨follower, followerHeader?, hsecond, hfollows⟩ := hboth element next header? hfirst
  exact ⟨follower, followerHeader?, hpassed.trans (stepWith_of_complete hread hsecond), hfollows⟩

theorem stepSkipping_of_readPayload {decoder : Decoder} {huffman : Bool} {length : Nat}
    {text : Octets} (hread : StringLiteral.readPayload huffman length unread = .complete text rest)
    (more : Nat → Stage) (done : Stage) :
    decoder.stepSkipping unread length more done =
      .advanced { decoder with stage := done } none rest := by
  obtain ⟨hlength, rfl⟩ := StringLiteral.eq_drop_of_readPayload hread
  rw [stepSkipping, if_neg (Nat.not_lt.2 hlength)]

theorem same_step_follows (hkept : kept.Valid) (hpassed : passed.Valid)
    (hunlimited : kept.IsUnlimited) (hstage : passed.stage = kept.stage)
    (htable : passed.listDecoder = kept.listDecoder)
    (hstep : kept.step unread = .advanced next header? rest) :
    passed.IsFollowedOn unread next rest := by
  have hlimit := hunlimited.limit
  have hkeeps := hunlimited.keepsAll
  unfold step at hstep
  cases hcase : kept.stage with
  | boundary =>
    rw [hcase] at hstep hstage
    exact stepWith_follows (by rw [step, hstage])
      (openingKnown_isFollowedBy hkept hpassed htable) hstep
  | index opening =>
    rw [hcase] at hstep hstage
    exact stepWith_follows (by rw [step, hstage])
      (fun rest ↦ indexKnown_isFollowedBy hkept hpassed htable opening _) hstep
  | nameLength indexing part =>
    rw [hcase] at hstep hstage
    refine stepWith_follows (by rw [step, hstage]) (fun reading ↦ ?_) hstep
    cases reading with
    | toBeContinued huffman => exact enter_isFollowedBy htable _
    | known huffman length =>
      exact nameLengthKnown_isFollowedBy hpassed hlimit htable indexing huffman length
  | name indexing huffman length =>
    rw [hcase] at hstep hstage
    exact stepWith_follows (by rw [step, hstage]) (nameKnown_isFollowedBy htable indexing) hstep
  | skippedName indexing remaining =>
    rw [hcase] at hkeeps
    exact hkeeps.elim
  | valueLength indexing name? part =>
    rw [hcase] at hstep hstage hkeeps
    cases name? with
    | none => exact hkeeps.elim
    | some name =>
      refine stepWith_follows (by rw [step, hstage]) (fun reading ↦ ?_) hstep
      cases reading with
      | toBeContinued huffman => exact enter_isFollowedBy htable _
      | known huffman length =>
        exact valueLengthKnown_isFollowedBy hkept hpassed hlimit htable indexing name huffman length
  | value indexing name huffman length =>
    rw [hcase] at hstep hstage
    exact stepWith_follows (by rw [step, hstage])
      (fun value ↦ deliverLiteral_isFollowedBy hkept hpassed htable indexing ⟨name, value⟩) hstep
  | skippedValue remaining =>
    rw [hcase] at hkeeps
    exact hkeeps.elim

theorem step_follows (hkept : kept.Valid) (hpassed : passed.Valid) (hunlimited : kept.IsUnlimited)
    (hfollows : kept.Follows passed) (hstep : kept.step unread = .advanced next header? rest) :
    passed.IsFollowedOn unread next rest := by
  have hlimit := hunlimited.limit
  cases hfollows with
  | same hstage htable => exact same_step_follows hkept hpassed hunlimited hstage htable hstep
  | skippedName indexing huffman length hkeptStage hpassedStage htable =>
    unfold step at hstep
    rw [hkeptStage] at hstep
    obtain ⟨name, hread, hname⟩ := exists_of_stepWith_advanced hstep
    have hlength := StringLiteral.minimumDecodedLength_le hread
    unfold nameKnown at hname
    split at hname
    · cases hname
    · obtain ⟨rfl, -⟩ := Prod.mk.inj (Except.ok.inj hname)
      have hskip : passed.step unread = .advanced
          { passed with stage := .valueLength indexing none .opening } none rest := by
        rw [step, hpassedStage]
        exact stepSkipping_of_readPayload hread _ _
      exact ⟨_, _, hskip, .namelessValue indexing name .opening rfl rfl (htable.mono hlength)⟩
  | namelessValue indexing name part hkeptStage hpassedStage htable =>
    unfold step at hstep
    rw [hkeptStage] at hstep
    refine stepWith_follows (by rw [step, hpassedStage]) (fun reading ↦ ?_) hstep
    cases reading with
    | toBeContinued huffman =>
      exact Transition.isFollowedBy_ok (.namelessValue indexing name _ rfl rfl htable)
    | known huffman length =>
      exact skipValue_follows hkept hlimit (htable.mono (Nat.le_add_right _ _))
  | skippedValue indexing name huffman length hkeptStage hpassedStage htable =>
    unfold step at hstep
    rw [hkeptStage] at hstep
    obtain ⟨value, hread, hvalue⟩ := exists_of_stepWith_advanced hstep
    have hlength := StringLiteral.minimumDecodedLength_le hread
    have hfield : name.length + StringLiteral.minimumDecodedLength huffman length ≤
        Field.length ⟨name, value⟩ := Nat.add_le_add_left hlength name.length
    have hskip : passed.step unread = .advanced { passed with stage := .boundary } none rest := by
      rw [step, hpassedStage]
      exact stepSkipping_of_readPayload hread _ _
    obtain ⟨follower, followerHeader?, hfollower, hfollows⟩ :=
      deliverLiteral_isFollowedBy_boundary hkept htable hfield next header? hvalue
    obtain ⟨rfl, -⟩ := Prod.mk.inj (Except.ok.inj hfollower)
    exact ⟨_, _, hskip, hfollows⟩

/-! ## Runs -/

theorem Follows.at_boundary (hfollows : kept.Follows passed) (hboundary : kept.stage = .boundary) :
    passed.stage = .boundary ∧ passed.listDecoder = kept.listDecoder := by
  cases hfollows with
  | same hstage htable => exact ⟨hstage.trans hboundary, htable⟩
  | skippedName indexing huffman length hkept hpassed htable =>
    rw [hboundary] at hkept
    cases hkept
  | namelessValue indexing name part hkept hpassed htable =>
    rw [hboundary] at hkept
    cases hkept
  | skippedValue indexing name huffman length hkept hpassed htable =>
    rw [hboundary] at hkept
    cases hkept

/-- The run took everything and ended where a representation ends. -/
structure Outcome.IsWhole (outcome : Outcome) : Prop where
  error_eq : outcome.error? = none
  rest_eq : outcome.rest = []
  atBoundary : outcome.decoder.stage = .boundary

/-- Induction along a run that is whole: no step waits or fails. -/
theorem whole_induction
    {motive : (kept : Decoder) → (unread : Octets) → kept.Valid → kept.IsUnlimited →
      (kept.consume unread).IsWhole → Prop}
    (nil : ∀ kept hkept hunlimited hwhole, motive kept [] hkept hunlimited hwhole)
    (advanced : ∀ kept unread next header? rest hkept hunlimited hwhole,
      kept.step unread = .advanced next header? rest →
      ∀ hnext hnextUnlimited hnextWhole, motive next rest hnext hnextUnlimited hnextWhole →
        motive kept unread hkept hunlimited hwhole)
    (kept : Decoder) (unread : Octets) (hkept : kept.Valid) (hunlimited : kept.IsUnlimited)
    (hwhole : (kept.consume unread).IsWhole) : motive kept unread hkept hunlimited hwhole := by
  induction kept, unread, hkept using consume_induction with
  | nil kept hkept => exact nil kept hkept hunlimited hwhole
  | advanced kept unread next header? rest hkept hstep hrest =>
    have hmatches := step_matches hkept hunlimited unread
    rw [hstep] at hmatches
    have hnextWhole : (next.consume rest).IsWhole := by
      rw [consume_advanced hkept hstep] at hwhole
      exact ⟨hwhole.error_eq, hwhole.rest_eq, hwhole.atBoundary⟩
    exact advanced kept unread next header? rest hkept hunlimited hwhole hstep
      (hkept.step_advanced hstep) hmatches.isUnlimited hnextWhole
      (hrest hmatches.isUnlimited hnextWhole)
  | waiting kept unread next rest hkept hne hstep =>
    have hmatches := step_matches hkept hunlimited unread
    rw [hstep] at hmatches
    rw [consume_waiting hkept hne hstep] at hwhole
    exact absurd (hmatches.2.1.symm.trans hwhole.rest_eq) hne
  | failed kept unread error rest hkept hstep =>
    rw [consume_failed hkept hstep] at hwhole
    exact absurd hwhole.error_eq (Option.some_ne_none error)

theorem consume_follows (hkept : kept.Valid) (hpassed : passed.Valid)
    (hunlimited : kept.IsUnlimited) (hfollows : kept.Follows passed)
    (hwhole : (kept.consume unread).IsWhole) :
    (passed.consume unread).IsWhole ∧
      (passed.consume unread).decoder.listDecoder = (kept.consume unread).decoder.listDecoder := by
  induction kept, unread, hkept, hunlimited, hwhole using whole_induction generalizing passed with
  | nil kept hkept hunlimited hwhole =>
    obtain ⟨hboundary, htable⟩ := hfollows.at_boundary hwhole.atBoundary
    exact ⟨⟨rfl, rfl, hboundary⟩, htable⟩
  | advanced kept unread next header? rest hkept hunlimited hwhole hstep hnext hnextUnlimited
      hnextWhole hrest =>
    obtain ⟨follower, followerHeader?, hfollower, hnextFollows⟩ :=
      step_follows hkept hpassed hunlimited hfollows hstep
    rw [consume_advanced hkept hstep, consume_advanced hpassed hfollower]
    have hsame := hrest (hpassed.step_advanced hfollower) hnextFollows
    exact ⟨⟨hsame.1.error_eq, hsame.1.rest_eq, hsame.1.atBoundary⟩, hsame.2⟩

end Decoder

/-! ## Blocks -/

namespace Block.Reader

/-- Decode blocks one after the other, each of them cut into fragments and ended before the next. -/
def receive (reader : Reader) : List (List Octets) → List Reception
  | [] => []
  | fragments :: blocks =>
    let received := reader.decodeAll fragments
    received :: received.reader.endBlock.2.receive blocks

/-- A block was decoded as a whole, without error. -/
def Reception.IsWhole (received : Reception) : Prop :=
  received.error? = none ∧ received.reader.isPartial = false

theorem Reception.isWhole_iff {received : Reception} {whole : Decoder.Outcome}
    (hreceived : whole.IsReceivedAs received) : received.IsWhole ↔ whole.IsWhole := by
  rw [IsWhole, isPartial_eq_false_iff, hreceived.decoder_eq, hreceived.error_eq]
  constructor
  · rintro ⟨herror, hunread, hboundary⟩
    exact ⟨herror, (hreceived.unread_eq herror).symm.trans hunread, hboundary⟩
  · intro hwhole
    exact ⟨hwhole.error_eq, (hreceived.unread_eq hwhole.error_eq).trans hwhole.rest_eq,
      hwhole.atBoundary⟩

/-- The tables of two readers are the same in all that can be observed. -/
structure SameTable (first second : Reader) : Prop where
  entries_eq : second.decoder.table.toList = first.decoder.table.toList
  size_eq : second.decoder.table.size = first.decoder.table.size
  capacity_eq : second.decoder.table.capacity = first.decoder.table.capacity

theorem sameTable_of_listDecoder_eq {first second : Reader} (hfirst : first.decoder.Valid)
    (hsecond : second.decoder.Valid)
    (htable : second.decoder.listDecoder = first.decoder.listDecoder) : first.SameTable second := by
  have hlisting : second.decoder.table.listing = first.decoder.table.listing :=
    congrArg ListDecoder.table htable
  have hentries : second.decoder.table.toList = first.decoder.table.toList :=
    congrArg ListTable.entries hlisting
  refine ⟨hentries, ?_, congrArg ListTable.capacity hlisting⟩
  rw [hfirst.table.size_eq, hsecond.table.size_eq, hentries]

theorem receive_follows {kept passed : Reader} (hkept : kept.IsIdle) (hpassed : passed.IsIdle)
    (hlimit : Size.largest ≤ kept.decoder.budget.limit)
    (htable : passed.decoder.listDecoder = kept.decoder.listDecoder)
    {blocks others : List (List Octets)}
    (hsame : others.map List.flatten = blocks.map List.flatten)
    (hwhole : ∀ received ∈ kept.receive blocks, received.IsWhole) :
    (passed.receive others).length = (kept.receive blocks).length ∧
      ∀ pair ∈ (kept.receive blocks).zip (passed.receive others),
        pair.2.IsWhole ∧ pair.1.reader.SameTable pair.2.reader := by
  induction blocks generalizing kept passed others with
  | nil =>
    obtain rfl := List.map_eq_nil_iff.1 hsame
    exact ⟨rfl, fun pair hpair ↦ absurd hpair List.not_mem_nil⟩
  | cons fragments blocks hblocks =>
    obtain ⟨otherFragments, others, rfl, hfragments, hothers⟩ := List.map_eq_cons_iff.1 hsame
    have hunlimited := Decoder.isUnlimited_of_boundary hkept.atBoundary hlimit
    have hfollows : kept.decoder.Follows passed.decoder :=
      .same (hpassed.atBoundary.trans hkept.atBoundary.symm) htable
    have hkeptReceived := Decoder.isReceivedAs_decodeAll hkept fragments
    have hpassedReceived := Decoder.isReceivedAs_decodeAll hpassed otherFragments
    rw [hfragments] at hpassedReceived
    have hfirst : (kept.decodeAll fragments).IsWhole := hwhole _ List.mem_cons_self
    obtain ⟨hsecond, hlistDecoder⟩ := Decoder.consume_follows hkept.reachable.valid
      hpassed.reachable.valid hunlimited hfollows ((Reception.isWhole_iff hkeptReceived).1 hfirst)
    rw [← hkeptReceived.decoder_eq, ← hpassedReceived.decoder_eq] at hlistDecoder
    have hkeptNext := reachable_decodeAll hkept.reachable fragments
    have hpassedNext := reachable_decodeAll hpassed.reachable otherFragments
    have hnextLimit : Size.largest ≤ (kept.decodeAll fragments).reader.decoder.budget.limit := by
      rw [hkeptReceived.decoder_eq]
      exact (Decoder.consume_isUnlimited hkept.reachable.valid hunlimited fragments.flatten).limit
    have hrest := hblocks (isIdle_endBlock hkeptNext) (isIdle_endBlock hpassedNext) hnextLimit
      hlistDecoder hothers fun received hreceived ↦
        hwhole received (List.mem_cons_of_mem _ hreceived)
    refine ⟨congrArg (· + 1) hrest.1, fun pair hpair ↦ ?_⟩
    rcases List.mem_cons.1 hpair with rfl | hpair
    · exact ⟨(Reception.isWhole_iff hpassedReceived).2 hsecond,
        sameTable_of_listDecoder_eq hkeptNext.valid hpassedNext.valid hlistDecoder⟩
    · exact hrest.2 pair hpair

/-- The budget never has an influence on the table: whatever blocks a reader with an unlimited
budget decodes as a whole, a reader with any other budget decodes them as a whole too, however they
are cut, and has the same table after each. -/
theorem receive_sameTable_of_truncation {kept passed : Reader} (hkept : kept.IsIdle)
    (hpassed : passed.IsIdle) (hlimit : kept.decoder.budget.limit = Size.largest)
    (hentries : passed.decoder.table.toList = kept.decoder.table.toList)
    (hcapacity : passed.decoder.table.capacity = kept.decoder.table.capacity)
    (hpolicy : passed.decoder.table.policy = kept.decoder.table.policy)
    (htableSizeLimit : passed.decoder.tableSizeLimit = kept.decoder.tableSizeLimit)
    {blocks others : List (List Octets)}
    (hsame : others.map List.flatten = blocks.map List.flatten)
    (hwhole : ∀ received ∈ kept.receive blocks,
      received.error? = none ∧ received.reader.isPartial = false) :
    (passed.receive others).length = (kept.receive blocks).length ∧
      ∀ pair ∈ (kept.receive blocks).zip (passed.receive others),
        pair.2.error? = none ∧ pair.2.reader.isPartial = false ∧ pair.2.reader.buffered = 0 ∧
          pair.2.reader.decoder.table.toList = pair.1.reader.decoder.table.toList ∧
          pair.2.reader.decoder.table.size = pair.1.reader.decoder.table.size ∧
          pair.2.reader.decoder.table.capacity = pair.1.reader.decoder.table.capacity := by
  have hlisting : passed.decoder.table.listing = kept.decoder.table.listing := by
    unfold DynamicTable.listing
    rw [hentries, hcapacity, hpolicy]
  have htable : passed.decoder.listDecoder = kept.decoder.listDecoder := by
    unfold Decoder.listDecoder
    rw [hlisting, htableSizeLimit]
  obtain ⟨hlength, hpairs⟩ :=
    receive_follows hkept hpassed (Nat.le_of_eq hlimit.symm) htable hsame hwhole
  refine ⟨hlength, fun pair hpair ↦ ?_⟩
  obtain ⟨⟨herror, hpartial⟩, hsameTable⟩ := hpairs pair hpair
  have hbuffered : pair.2.reader.buffered = 0 := by
    rw [buffered, ← Queue.length_unread, (isPartial_eq_false_iff.1 hpartial).1, List.length_nil]
  exact ⟨herror, hpartial, hbuffered, hsameTable.entries_eq, hsameTable.size_eq,
    hsameTable.capacity_eq⟩

/-- A reader that delivers nothing keeps a field that fits and drops the table for one that does
not. -/
theorem receive_sameTable_of_truncation_of_no_budget :
    let kept : Reader := .ofSettings { listSizeLimit := Size.largest, tableSizeLimit := 40 }
    let passed : Reader := .ofSettings { listSizeLimit := 0, tableSizeLimit := 40 }
    let fitting : Octets := [0x40, 0x01, 0x61, 0x01, 0x62]
    let large : Octets := [0x40, 0x09, 0x61, 0x61, 0x61, 0x61, 0x61, 0x61, 0x61, 0x61, 0x61, 0x00]
    ∀ pair ∈ (kept.receive [[fitting], [large]]).zip (passed.receive [[fitting, []], [large]]),
      pair.2.error? = none ∧ pair.2.reader.isPartial = false ∧ pair.2.reader.buffered = 0 ∧
        pair.2.reader.decoder.table.toList = pair.1.reader.decoder.table.toList ∧
        pair.2.reader.decoder.table.size = pair.1.reader.decoder.table.size ∧
        pair.2.reader.decoder.table.capacity = pair.1.reader.decoder.table.capacity := by
  intro kept passed fitting large
  have hwhole : ∀ received ∈ kept.receive [[fitting], [large]],
      received.error? = none ∧ received.reader.isPartial = false := by
    decide +kernel
  have hkept : kept.IsIdle := isIdle_ofSettings _
  have hpassed : passed.IsIdle := isIdle_ofSettings _
  have hsame : [[fitting, []], [large]].map List.flatten =
      [[fitting], [large]].map List.flatten := rfl
  exact (receive_sameTable_of_truncation hkept hpassed rfl rfl rfl rfl rfl hsame hwhole).2

end Block.Reader

end HeaderCompression
