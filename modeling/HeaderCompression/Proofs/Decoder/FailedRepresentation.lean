import HeaderCompression.Proofs.Block.Histories
import HeaderCompression.Proofs.Decoder.Truncation

/-!
# Representations that fail

A run that fails has decoded some representations as a whole and fails inside the next one. That
one delivers nothing and leaves the table as it was, with one exception: a literal that is passed
over because its name alone exceeds the budget and the table has emptied the table by the time the
length of its value turns out to be too large.
-/

namespace HeaderCompression

open Octets Table Wire

/-! ## Lengths that fail -/

theorem Wire.PrefixedInteger.eq_integerOverflow_of_readGroups {group sum : Nat}
    {octets rest : Octets} {error : DecodingError}
    (hread : readGroups group sum octets = .failed error rest) : error = .integerOverflow := by
  fun_induction readGroups group sum octets with
  | case1 => cases hread
  | case2 group sum octet octets hoverflow => exact (Reading.failed.inj hread).1.symm
  | case3 => cases hread
  | case4 group sum octet octets hfits next hcontinues hgroups => exact hgroups hread

theorem LengthPart.eq_integerOverflow_of_read {part : LengthPart} {octets rest : Octets}
    {error : DecodingError} (hread : part.read octets = .failed error rest) :
    error = .integerOverflow := by
  cases part with
  | opening => cases octets <;> cases hread
  | continuation huffman =>
    rw [read, PrefixedInteger.readContinuation] at hread
    cases hgroups : PrefixedInteger.readGroups 0 0 octets with
    | complete value left =>
      rw [hgroups] at hread
      cases hread
    | incomplete =>
      rw [hgroups] at hread
      cases hread
    | failed other left =>
      rw [hgroups] at hread
      obtain ⟨rfl, -⟩ := Reading.failed.inj hread
      exact PrefixedInteger.eq_integerOverflow_of_readGroups hgroups

namespace Decoder

variable {start decoder next : Decoder} {header? : Option Header}
  {completed : Decoder × Option Header} {octets unread rest : Octets} {error : DecodingError}

theorem failed_of_stepWith {α : Type} {reader : Octets → Reading α} {consequence : α → Transition}
    (hstep : decoder.stepWith unread reader consequence = .failed error rest) :
    reader unread = .failed error rest ∨
      ∃ element, reader unread = .complete element rest ∧ consequence element = .error error := by
  unfold stepWith at hstep
  cases hread : reader unread with
  | incomplete => simp [hread] at hstep
  | failed other left =>
    rw [hread] at hstep
    obtain ⟨rfl, rfl⟩ := Step.failed.inj hstep
    exact .inl rfl
  | complete element left =>
    cases hconsequence : consequence element with
    | ok completed => simp [hread, hconsequence] at hstep
    | error other =>
      simp only [hread, hconsequence] at hstep
      obtain ⟨rfl, rfl⟩ := Step.failed.inj hstep
      exact .inr ⟨element, rfl, hconsequence⟩

/-! ## What has been done inside a representation -/

/-- The octets begin an incremental literal whose name is spelled out, and the length of the name
alone is too large for the budget and for the table. -/
def OpensOversized (start : Decoder) (octets : Octets) : Prop :=
  ∃ others huffman length payload, octets = 0x40 :: others ∧
    StringLiteral.readLength others = .complete (huffman, length) payload ∧
    start.budget.admits (StringLiteral.minimumDecodedLength huffman length) = false ∧
    start.table.capacity <
      StringLiteral.minimumDecodedLength huffman length + Field.overhead

/-- The table is as it was, or it was emptied for a literal that is too large. -/
def SparesTable (start : Decoder) (octets : Octets) (decoder : Decoder) : Prop :=
  decoder.table = start.table ∨
    decoder.table = start.table.clear ∧ start.OpensOversized octets

/-- What has been done when a representation at the front of `octets` has been read as far as
`unread`. Where a value is passed over, nothing can fail any more. -/
def IsWithin (start : Decoder) (octets : Octets) (decoder : Decoder) (unread : Octets) : Prop :=
  match decoder.stage with
  | .boundary => decoder = start ∧ unread = octets
  | .nameLength indexing part =>
    decoder.table = start.table ∧ decoder.budget = start.budget ∧
      (indexing = .incremental → ∃ others, octets = 0x40 :: others ∧
        StringLiteral.readLength others = part.readRest unread)
  | .skippedName _ _ => start.SparesTable octets decoder
  | .valueLength _ none _ => start.SparesTable octets decoder
  | .skippedValue _ => True
  | _ => decoder.table = start.table

/-- The element either completes the representation or leads further into it. -/
def Transition.StaysWithin (start : Decoder) (octets rest : Octets) (transition : Transition) :
    Prop :=
  ∀ next header?, transition = .ok (next, header?) → next.stage ≠ .boundary →
    header? = none ∧ start.IsWithin octets next rest

theorem Transition.staysWithin_error (error : DecodingError) :
    Transition.StaysWithin start octets rest (.error error) := by
  intro other otherHeader? hother
  cases hother

theorem Transition.staysWithin_of_boundary (hboundary : completed.1.stage = .boundary) :
    Transition.StaysWithin start octets rest (.ok completed) := by
  intro other otherHeader? hother hinside
  obtain rfl := Except.ok.inj hother
  exact absurd hboundary hinside

theorem Transition.staysWithin_bind {α : Type} (result : Except DecodingError α)
    {consequence : α → Transition}
    (hconsequence : ∀ value, (consequence value).StaysWithin start octets rest) :
    Transition.StaysWithin start octets rest (result >>= consequence) := by
  cases result with
  | error error => exact staysWithin_error error
  | ok value => exact hconsequence value

theorem enter_staysWithin {stage : Stage}
    (hwithin : start.IsWithin octets { decoder with stage } rest) :
    (decoder.enter stage).StaysWithin start octets rest := by
  intro other otherHeader? hother _
  obtain ⟨rfl, rfl⟩ := Prod.mk.inj (Except.ok.inj hother)
  exact ⟨rfl, hwithin⟩

/-! ## One rule for each element -/

/-- A literal is passed over without any effect on the table, unless it is too large for it. -/
theorem table_passesOver (decoder : Decoder) (indexing : Indexing) (length : Nat) :
    (decoder.passesOver indexing length).2.table = decoder.table ∨
      (decoder.passesOver indexing length).1 = true ∧
        (decoder.passesOver indexing length).2.table = decoder.table.clear ∧
        indexing = .incremental ∧ decoder.budget.admits length = false ∧
        decoder.table.capacity < length + Field.overhead := by
  unfold passesOver
  cases hadmits : decoder.budget.admits length with
  | true => exact .inl rfl
  | false =>
    rw [if_neg Bool.false_ne_true]
    cases indexing with
    | without => exact .inl rfl
    | never => exact .inl rfl
    | incremental =>
      dsimp only
      split
      · rename_i hcapacity
        exact .inr ⟨rfl, rfl, rfl, rfl, hcapacity⟩
      · exact .inl rfl

/-- An index of zero can only stand in the first octet, where it is followed by a name. -/
theorem indexKnown_staysWithin (htable : decoder.table = start.table) {opening : Opening}
    {value : Nat} (hname : ∀ indexing, opening = .literal indexing → value = 0 →
      start.IsWithin octets { decoder with stage := .nameLength indexing .opening } rest) :
    (decoder.indexKnown opening value).StaysWithin start octets rest := by
  unfold indexKnown
  cases opening with
  | indexed =>
    exact Transition.staysWithin_bind _ fun field ↦
      Transition.staysWithin_of_boundary (stage_deliver decoder _)
  | sizeUpdate =>
    exact Transition.staysWithin_bind _ fun resized ↦ Transition.staysWithin_of_boundary rfl
  | literal indexing =>
    dsimp only
    split
    · rename_i hzero
      exact enter_staysWithin (hname indexing rfl hzero)
    · exact Transition.staysWithin_bind _ fun field ↦ enter_staysWithin htable

theorem eq_of_incremental_zero {octet : UInt8}
    (hopening : Opening.ofOctet octet = .literal .incremental)
    (hlow : PrefixedInteger.lowBits? (Opening.ofOctet octet).width octet = some 0) :
    octet = 0x40 := by
  revert hopening hlow
  refine Octets.forall_octet ?_ octet
  decide +kernel

theorem openingKnown_staysWithin (octet : UInt8) :
    (start.openingKnown octet).StaysWithin start (octet :: rest) rest := by
  unfold openingKnown
  dsimp only
  cases hlow : PrefixedInteger.lowBits? (Opening.ofOctet octet).width octet with
  | none => exact enter_staysWithin rfl
  | some value =>
    refine indexKnown_staysWithin rfl fun indexing hopening hzero ↦ ⟨rfl, rfl, ?_⟩
    rintro rfl
    subst hzero
    obtain rfl := eq_of_incremental_zero hopening hlow
    exact ⟨rest, rfl, rfl⟩

theorem nameLengthKnown_staysWithin {indexing : Indexing} {part : LengthPart} {huffman : Bool}
    {length : Nat}
    (hwithin : start.IsWithin octets { decoder with stage := .nameLength indexing part } unread)
    (hread : part.read unread = .complete (.known huffman length) rest) :
    (decoder.nameLengthKnown indexing huffman length).StaysWithin start octets rest := by
  obtain ⟨htable, hbudget, hname⟩ := hwithin
  have hdecided := decoder.table_passesOver indexing
    (StringLiteral.minimumDecodedLength huffman length)
  unfold nameLengthKnown
  split
  · exact Transition.staysWithin_error .emptyName
  · apply enter_staysWithin
    rcases hdecided with hsame | ⟨hpasses, hcleared, rfl, hbudgetExceeded, hcapacity⟩
    · have hspared : start.SparesTable octets
          (decoder.passesOver indexing (StringLiteral.minimumDecodedLength huffman length)).2 :=
        .inl (hsame.trans htable)
      split
      · exact hspared
      · exact hsame.trans htable
    · obtain ⟨others, hoctets, hlength⟩ := hname rfl
      rw [LengthPart.readRest_eq, hread] at hlength
      rw [if_pos hpasses]
      refine .inr ⟨hcleared.trans (congrArg _ htable), others, huffman, length, rest, hoctets,
        hlength, ?_, ?_⟩
      · rw [← hbudget]
        exact hbudgetExceeded
      · rw [← htable]
        exact hcapacity

theorem nameKnown_staysWithin (htable : decoder.table = start.table) (indexing : Indexing)
    (name : Octets) : (decoder.nameKnown indexing name).StaysWithin start octets rest := by
  unfold nameKnown
  split
  · exact Transition.staysWithin_error .emptyName
  · exact enter_staysWithin htable

theorem skipValue_staysWithin (decoder : Decoder) (length : Nat) :
    (decoder.skipValue length).StaysWithin start octets rest := by
  unfold skipValue
  split
  · exact Transition.staysWithin_of_boundary rfl
  · exact enter_staysWithin trivial

theorem valueLengthKnown_staysWithin {name? : Option Octets}
    (htable : name? ≠ none → decoder.table = start.table) (indexing : Indexing) (huffman : Bool)
    (length : Nat) :
    (decoder.valueLengthKnown indexing name? huffman length).StaysWithin start octets rest := by
  cases name? with
  | none => exact skipValue_staysWithin decoder length
  | some name =>
    have hdecided := decoder.table_passesOver indexing
      (name.length + StringLiteral.minimumDecodedLength huffman length)
    unfold valueLengthKnown
    dsimp only
    split
    · exact skipValue_staysWithin _ length
    · rename_i hkept
      split
      · exact Transition.staysWithin_of_boundary (stage_deliverLiteral _ indexing ⟨name, []⟩)
      · have hsame := hdecided.resolve_right fun hcleared ↦ hkept hcleared.1
        exact enter_staysWithin (hsame.trans (htable (Option.some_ne_none name)))

/-! ## Steps -/

/-- A step inside a representation delivers nothing unless it completes the representation. -/
theorem isWithin_of_step (hwithin : start.IsWithin octets decoder unread)
    (hstep : decoder.step unread = .advanced next header? rest) (hinside : next.stage ≠ .boundary) :
    header? = none ∧ start.IsWithin octets next rest := by
  suffices hstays : ∃ transition : Transition, transition.StaysWithin start octets rest ∧
      transition = .ok (next, header?) by
    obtain ⟨transition, hstays, htransition⟩ := hstays
    exact hstays next header? htransition hinside
  unfold IsWithin at hwithin
  unfold step at hstep
  cases hstage : decoder.stage with
  | boundary =>
    rw [hstage] at hwithin hstep
    obtain ⟨rfl, rfl⟩ := hwithin
    obtain ⟨octet, hread, hknown⟩ := exists_of_stepWith_advanced hstep
    cases unread with
    | nil => cases hread
    | cons first others =>
      obtain ⟨rfl, rfl⟩ := Reading.complete.inj hread
      exact ⟨_, openingKnown_staysWithin first, hknown⟩
  | index opening =>
    rw [hstage] at hwithin hstep
    obtain ⟨value, -, hknown⟩ := exists_of_stepWith_advanced hstep
    refine ⟨_, indexKnown_staysWithin hwithin fun indexing hopening hzero ↦ ?_, hknown⟩
    have hones : 0 < Bits.ones opening.width := by
      rw [hopening]
      cases indexing <;> decide
    omega
  | nameLength indexing part =>
    rw [hstage] at hwithin hstep
    obtain ⟨reading, hread, hknown⟩ := exists_of_stepWith_advanced hstep
    cases reading with
    | known huffman length => exact ⟨_, nameLengthKnown_staysWithin hwithin hread, hknown⟩
    | toBeContinued huffman =>
      refine ⟨_, enter_staysWithin ?_, hknown⟩
      obtain ⟨htable, hbudget, hname⟩ := hwithin
      refine ⟨htable, hbudget, fun hincremental ↦ ?_⟩
      obtain ⟨others, hoctets, hlength⟩ := hname hincremental
      rw [LengthPart.readRest_eq, hread] at hlength
      exact ⟨others, hoctets, hlength⟩
  | name indexing huffman length =>
    rw [hstage] at hwithin hstep
    obtain ⟨name, -, hknown⟩ := exists_of_stepWith_advanced hstep
    exact ⟨_, nameKnown_staysWithin hwithin indexing name, hknown⟩
  | skippedName indexing remaining =>
    rw [hstage] at hwithin hstep
    unfold stepSkipping at hstep
    dsimp only at hstep
    split at hstep
    · cases hstep
    · obtain ⟨rfl, rfl, -⟩ := Step.advanced.inj hstep
      refine ⟨_, enter_staysWithin ?_, rfl⟩
      exact hwithin
  | valueLength indexing name? part =>
    rw [hstage] at hwithin hstep
    obtain ⟨reading, -, hknown⟩ := exists_of_stepWith_advanced hstep
    cases reading with
    | known huffman length =>
      refine ⟨_, valueLengthKnown_staysWithin ?_ indexing huffman length, hknown⟩
      intro hname
      obtain ⟨name, rfl⟩ := Option.ne_none_iff_exists'.1 hname
      exact hwithin
    | toBeContinued huffman =>
      refine ⟨_, enter_staysWithin ?_, hknown⟩
      cases name? <;> exact hwithin
  | value indexing name huffman length =>
    rw [hstage] at hstep
    obtain ⟨value, -, hknown⟩ := exists_of_stepWith_advanced hstep
    exact ⟨_, Transition.staysWithin_of_boundary (stage_deliverLiteral decoder indexing _), hknown⟩
  | skippedValue remaining =>
    rw [hstage] at hstep
    unfold stepSkipping at hstep
    dsimp only at hstep
    split at hstep
    · cases hstep
    · obtain ⟨rfl, rfl, -⟩ := Step.advanced.inj hstep
      exact absurd rfl hinside

/-- A step fails before the table has changed, unless the value of a literal without its name has a
length that is too large. -/
theorem table_of_step_failed (hwithin : start.IsWithin octets decoder unread)
    (hstep : decoder.step unread = .failed error rest) :
    decoder.table = start.table ∨
      decoder.table = start.table.clear ∧ start.OpensOversized octets ∧
        error = .integerOverflow := by
  unfold IsWithin at hwithin
  unfold step at hstep
  cases hstage : decoder.stage with
  | boundary =>
    rw [hstage] at hwithin
    exact .inl (congrArg Decoder.table hwithin.1)
  | nameLength indexing part =>
    rw [hstage] at hwithin
    exact .inl hwithin.1
  | skippedName indexing remaining =>
    rw [hstage] at hstep
    exact absurd hstep stepSkipping_ne_failed
  | skippedValue remaining =>
    rw [hstage] at hstep
    exact absurd hstep stepSkipping_ne_failed
  | valueLength indexing name? part =>
    rw [hstage] at hwithin hstep
    cases name? with
    | some name => exact .inl hwithin
    | none =>
      refine hwithin.imp_right fun hcleared ↦ ⟨hcleared.1, hcleared.2, ?_⟩
      rcases failed_of_stepWith hstep with hread | ⟨reading, -, hknown⟩
      · exact LengthPart.eq_integerOverflow_of_read hread
      · cases reading <;> cases hknown
  | _ =>
    rw [hstage] at hwithin
    exact .inl hwithin

/-! ## Runs -/

/-- A run after a first part that is whole. -/
theorem consume_append_of_isWhole (hvalid : decoder.Valid) {part : Octets}
    (hwhole : (decoder.consume part).IsWhole) (others : Octets) :
    decoder.consume (part ++ others) =
      { (decoder.consume part).decoder.consume others with
        headers := (decoder.consume part).headers ++
          ((decoder.consume part).decoder.consume others).headers } := by
  rw [consume_append hvalid, Outcome.resume_of_no_error hwhole.error_eq, hwhole.rest_eq,
    List.nil_append]

/-- The octets before a representation that fails are the longest first part that is whole. The
induction is on the octets that are left. -/
theorem exists_complete_append (hvalid : decoder.Valid) (hboundary : decoder.stage = .boundary)
    (octets : Octets) :
    ∃ complete failing, octets = complete ++ failing ∧ (decoder.consume complete).IsWhole ∧
      ∀ part, part <+: failing → part ≠ [] →
        ¬((decoder.consume complete).decoder.consume part).IsWhole := by
  induction hlength : octets.length using Nat.strongRecOn generalizing decoder octets with
  | ind length hshorter =>
    subst hlength
    by_cases hpart : ∃ part, part <+: octets ∧ part ≠ [] ∧ (decoder.consume part).IsWhole
    · obtain ⟨part, ⟨others, rfl⟩, hne, hwhole⟩ := hpart
      have hvalidNext : (decoder.consume part).decoder.Valid := hvalid.run _ _
      have hothers : others.length < (part ++ others).length := by
        have hpos := List.length_pos_iff.2 hne
        rw [List.length_append]
        omega
      obtain ⟨complete, failing, rfl, hcomplete, hfailing⟩ :=
        hshorter others.length hothers hvalidNext hwhole.atBoundary others rfl
      refine ⟨part ++ complete, failing, (List.append_assoc part complete failing).symm, ?_, ?_⟩
      · rw [consume_append_of_isWhole hvalid hwhole]
        exact ⟨hcomplete.error_eq, hcomplete.rest_eq, hcomplete.atBoundary⟩
      · rw [consume_append_of_isWhole hvalid hwhole]
        exact hfailing
    · exact ⟨[], octets, rfl, ⟨rfl, rfl, hboundary⟩,
        fun part hfirst hne hwhole ↦ hpart ⟨part, hfirst, hne, hwhole⟩⟩

/-- A run that fails before any representation is complete. -/
theorem consume_of_no_whole_part (hvalid : decoder.Valid)
    (hnone : ∀ part, part <+: octets → part ≠ [] → ¬(start.consume part).IsWhole)
    (hwithin : start.IsWithin octets decoder unread) {taken : Octets}
    (htaken : octets = taken ++ unread)
    (hreaches : ∀ others, start.consume (taken ++ others) = decoder.consume others)
    (herror : (decoder.consume unread).error? = some error) :
    (decoder.consume unread).headers = [] ∧
      ((decoder.consume unread).decoder.table = start.table ∨
        (decoder.consume unread).decoder.table = start.table.clear ∧
          start.OpensOversized octets ∧ error = .integerOverflow) := by
  induction decoder, unread, hvalid using consume_induction generalizing taken with
  | nil decoder hvalid => cases herror
  | waiting decoder unread next rest hvalid hne hstep =>
    rw [consume_waiting hvalid hne hstep] at herror
    cases herror
  | failed decoder unread other rest hvalid hstep =>
    rw [consume_failed hvalid hstep] at herror ⊢
    obtain rfl := Option.some.inj herror
    exact ⟨rfl, table_of_step_failed hwithin hstep⟩
  | advanced decoder unread next header? rest hvalid hstep hrest =>
    obtain ⟨piece, rfl, hpiece⟩ := exists_taken_of_step_advanced hvalid.stage hstep
    have hnext : ∀ others, start.consume (taken ++ piece ++ others) =
        (next.consume others).after header? := by
      intro others
      rw [List.append_assoc, hreaches, consume_advanced hvalid (hpiece others)]
    have hinside : next.stage ≠ .boundary := by
      intro hboundary
      have htakenPiece : taken ++ piece <+: octets := by
        rw [htaken, ← List.append_assoc]
        exact List.prefix_append _ _
      have hne : taken ++ piece ≠ [] := by
        have hpieceNil := ne_nil_of_step_advanced hvalid (hpiece [])
        rw [List.append_nil] at hpieceNil
        exact List.append_ne_nil_of_right_ne_nil taken hpieceNil
      apply hnone (taken ++ piece) htakenPiece hne
      rw [← List.append_nil (taken ++ piece), hnext]
      exact ⟨rfl, rfl, hboundary⟩
    obtain ⟨rfl, hnextWithin⟩ := isWithin_of_step hwithin hstep hinside
    rw [consume_advanced hvalid hstep] at herror ⊢
    exact hrest hnextWithin (by rw [htaken, List.append_assoc]) hnext herror

/-- A run that fails has the headers of the representations before the one that fails, and the
capacity that they leave, and apart from one exception the table that they leave. -/
theorem consume_of_error (hvalid : decoder.Valid) (hboundary : decoder.stage = .boundary)
    (herror : (decoder.consume octets).error? = some error) :
    ∃ complete failing, octets = complete ++ failing ∧
      let before := decoder.consume complete
      before.IsWhole ∧
        (∀ part, part <+: failing → part ≠ [] → ¬(before.decoder.consume part).IsWhole) ∧
        (decoder.consume octets).headers = before.headers ∧
        ((decoder.consume octets).decoder.table = before.decoder.table ∨
          (decoder.consume octets).decoder.table = before.decoder.table.clear ∧
            before.decoder.OpensOversized failing ∧ error = .integerOverflow) := by
  obtain ⟨complete, failing, rfl, hwhole, hnone⟩ :=
    exists_complete_append hvalid hboundary octets
  have hvalidNext : (decoder.consume complete).decoder.Valid := hvalid.run _ _
  have hwithin : (decoder.consume complete).decoder.IsWithin failing
      (decoder.consume complete).decoder failing := by
    unfold IsWithin
    rw [hwhole.atBoundary]
    exact ⟨rfl, rfl⟩
  rw [consume_append_of_isWhole hvalid hwhole] at herror ⊢
  obtain ⟨hheaders, htable⟩ := consume_of_no_whole_part hvalidNext hnone hwithin
    (List.nil_append failing).symm (fun _ ↦ rfl) herror
  refine ⟨complete, failing, rfl, hwhole, hnone, ?_, htable⟩
  dsimp only
  rw [hheaders, List.append_nil]

/-! ## Arrivals -/

/-- Whatever arrives at a decoder between two representations, and in whatever fragments, if
decoding fails then the headers delivered and the capacity are those of the complete representations
before the one that fails. The table is the one that they leave, unless it was emptied for a literal
whose name alone was too large. A capacity that is rejected leaves the decoder as it was. -/
theorem failures_have_no_partial_effect (hreachable : decoder.Reachable) :
    (decoder.stage = .boundary → ∀ (queue : Queue) (arrivals : List Arrival)
      (error : DecodingError), queue.IsMarked → arrivals ≠ [] →
      (decoder.decodeArrivals queue arrivals).1.error? = some error →
      let arrived := (decoder.decodeArrivals queue arrivals).1
      ∃ complete failing, queue.unread ++ arriving arrivals = complete ++ failing ∧
        let before := (decoder.decode (.ofOctets complete)).1
        before.IsWhole ∧
          (∀ part, part <+: failing → part ≠ [] →
            ¬(before.decoder.decode (.ofOctets part)).1.IsWhole) ∧
          arrived.headers = before.headers ∧
          arrived.decoder.table.capacity = before.decoder.table.capacity ∧
          (arrived.decoder.table = before.decoder.table ∨
            arrived.decoder.table = before.decoder.table.clear ∧
              before.decoder.OpensOversized failing) ∧
          (∀ requested largest, error = .capacityTooLarge requested largest →
            arrived.decoder.table = before.decoder.table)) ∧
      ∀ capacity, decoder.tableSizeLimit < capacity →
        decoder.resize capacity = .error (.capacityTooLarge capacity decoder.tableSizeLimit) ∧
          ∀ input : Queue, (Block.Reader.mk decoder input).perform (.resize capacity) =
            ⟨decoder, input⟩ := by
  constructor
  · intro hboundary queue arrivals error hmarked hne herror
    have hagrees := (decodeArrivals_agrees hreachable.valid hmarked hne).1
    rw [hagrees.error_eq] at herror
    obtain ⟨complete, failing, hoctets, hwhole, hnone, hheaders, htable⟩ :=
      consume_of_error hreachable.valid hboundary herror
    dsimp only
    rw [hagrees.headers_eq, hagrees.decoder_eq]
    simp only [decode_fst, Queue.unread_ofOctets]
    refine ⟨complete, failing, hoctets, hwhole, hnone, hheaders, ?_, ?_, ?_⟩
    · rcases htable with hsame | ⟨hcleared, -, -⟩
      · rw [hsame]
      · rw [hcleared]
        rfl
    · exact htable.imp_right fun hcleared ↦ ⟨hcleared.1, hcleared.2.1⟩
    · rintro requested largest rfl
      rcases htable with hsame | ⟨-, -, hoverflow⟩
      · exact hsame
      · cases hoverflow
  · intro capacity hcapacity
    have hresize : decoder.resize capacity =
        .error (.capacityTooLarge capacity decoder.tableSizeLimit) := by
      rw [resize, if_pos hcapacity]
    refine ⟨hresize, fun input ↦ ?_⟩
    rw [Block.Reader.perform]
    dsimp only
    rw [hresize]
    rfl

/-- The table is emptied for a name of nine octets, and then the length of the value is too large. -/
theorem failures_have_no_partial_effect_of_oversized_name :
    let decoder := ofSettings { listSizeLimit := 4, tableSizeLimit := 40 }
    let arrivals : List Arrival :=
      [{ fragment := [0x40, 0x01, 0x61, 0x01, 0x62, 0x40] },
        { fragment := [0x09, 0x61, 0x61, 0x61, 0x61, 0x61, 0x61, 0x61, 0x61, 0x61, 0x7f] },
        { fragment := [0xff, 0xff, 0xff, 0xff, 0x08] }]
    (decoder.decodeArrivals .empty arrivals).1.error? = some .integerOverflow ∧
      (decoder.decodeArrivals .empty arrivals).1.decoder.table.toList = [] ∧
      ∃ complete failing, arriving arrivals = complete ++ failing ∧
        (decoder.decode (.ofOctets complete)).1.IsWhole ∧
        (decoder.decodeArrivals .empty arrivals).1.headers =
          (decoder.decode (.ofOctets complete)).1.headers := by
  intro decoder arrivals
  have herror : (decoder.decodeArrivals .empty arrivals).1.error? = some .integerOverflow := by
    decide +kernel
  have hentries : (decoder.decodeArrivals .empty arrivals).1.decoder.table.toList = [] := by
    decide +kernel
  have hreachable : decoder.Reachable := .ofSettings _
  have hboundary : decoder.stage = .boundary := rfl
  have hne : arrivals ≠ [] := List.cons_ne_nil _ _
  -- From here on it does not matter what the decoder and the arrivals are.
  clear_value decoder arrivals
  obtain ⟨complete, failing, hoctets, hwhole, -, hsame, -⟩ :=
    (failures_have_no_partial_effect hreachable).1 hboundary .empty arrivals .integerOverflow
      Queue.isMarked_empty hne herror
  exact ⟨herror, hentries, complete, failing, hoctets, hwhole, hsame⟩

end Decoder

end HeaderCompression
