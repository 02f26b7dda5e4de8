import HeaderCompression.Proofs.Checked.HuffmanDecoding
import HeaderCompression.Proofs.Decoder.Budgets
import HeaderCompression.Proofs.Decoder.Waiting

/-!
# Least lengths

The length of a payload is known before the payload has arrived, and it tells how many octets the
literal will have at least. The decoder passes a literal over on that alone. It never does so too
early: the literal that the payload stands for is at least as long, so the budget and the table
refuse that literal as well, and reading it would come to the same as passing it over.
-/

namespace HeaderCompression

open Octets Table Wire

namespace Decoder

variable {decoder : Decoder} {unread : Octets} {indexing : Indexing} {least : Nat} {field : Field}

/-! ## Refusals -/

/-- Reading a literal comes to the same as passing it over, if it is as long as it was taken to be
when it was passed over. -/
theorem deliverLiteral_of_passesOver (hpasses : (decoder.passesOver indexing least).1 = true)
    (hleast : least ≤ field.length) :
    decoder.deliverLiteral indexing field =
      ({ (decoder.passesOver indexing least).2 with stage := .boundary }, none) := by
  obtain ⟨hrefused, hcapacity⟩ := passesOver_eq_true_iff.1 hpasses
  have hdelivered : decoder.deliver { field, sensitive := indexing = .never } =
      ({ decoder with budget := decoder.budget.exhaust, stage := .boundary }, none) :=
    deliver_of_refused (Budget.admits_eq_false_of_le hleast hrefused)
  unfold deliverLiteral passesOver
  rw [hdelivered, hrefused, if_neg Bool.false_ne_true]
  -- Only an insertion concerns the table, and one that is too large empties it just as well.
  cases indexing with
  | without => rfl
  | never => rfl
  | incremental =>
    have hsmall := hcapacity rfl
    have hlarge : decoder.table.capacity < field.size :=
      Nat.lt_of_lt_of_le hsmall (Nat.add_le_add_right hleast Field.overhead)
    have hclear : decoder.table.add field = decoder.table.clear := if_pos hlarge
    dsimp only
    rw [hclear, if_pos hsmall]

/-! ## Announced literals -/

/-- The length that is read next announces a literal of at least `least` octets, and the payload of
that length, whenever it arrives, makes the literal `field`. The length of a name announces nothing
if it is zero, and after a name any value may follow. -/
inductive Announces (decoder : Decoder) (unread : Octets) : Indexing → Nat → Field → Prop
  | nameLength {indexing : Indexing} {part : LengthPart} {huffman : Bool}
    {payload rest name : Octets} (hstage : decoder.stage = .nameLength indexing part)
    (hread : part.read unread = .complete (.known huffman payload.length) rest)
    (hpayload : payload ≠ []) (hname : StringLiteral.textOf huffman payload = .ok name)
    (value : Octets) :
    Announces decoder unread indexing
      (StringLiteral.minimumDecodedLength huffman payload.length) ⟨name, value⟩
  | valueLength {indexing : Indexing} {name : Octets} {part : LengthPart} {huffman : Bool}
    {payload rest value : Octets} (hstage : decoder.stage = .valueLength indexing (some name) part)
    (hread : part.read unread = .complete (.known huffman payload.length) rest)
    (hvalue : StringLiteral.textOf huffman payload = .ok value) :
    Announces decoder unread indexing
      (name.length + StringLiteral.minimumDecodedLength huffman payload.length) ⟨name, value⟩

theorem Announces.least_le (hannounces : decoder.Announces unread indexing least field) :
    least ≤ field.length := by
  cases hannounces with
  | nameLength hstage hread hpayload hname value =>
    exact Nat.le_trans (StringLiteral.minimumDecodedLength_le_of_textOf hname)
      (Nat.le_add_right _ _)
  | valueLength hstage hread hvalue =>
    exact Nat.add_le_add_left (StringLiteral.minimumDecodedLength_le_of_textOf hvalue) _

/-- The least length is what the decoder decides by when it has read the length. -/
theorem Announces.exists_step (hannounces : decoder.Announces unread indexing least field)
    (hpasses : (decoder.passesOver indexing least).1 = true) :
    ∃ stage rest, (stage = .boundary ∨ stage.IsSkipping) ∧
      decoder.step unread =
        .advanced { (decoder.passesOver indexing least).2 with stage } none rest := by
  cases hannounces with
  | @nameLength part huffman payload rest name hstage hread hpayload hname value =>
    refine ⟨.skippedName indexing payload.length, rest, .inr trivial, ?_⟩
    have hlength : payload.length ≠ 0 := mt List.length_eq_zero_iff.1 hpayload
    rw [step, hstage]
    refine stepWith_of_complete hread ?_
    simp only [nameLengthKnown, if_neg hlength, hpasses, if_true, enter]
  | @valueLength name part huffman payload rest value hstage hread hvalue =>
    refine ⟨if payload.length = 0 then .boundary else .skippedValue payload.length, rest, ?_, ?_⟩
    · split
      · exact .inl rfl
      · exact .inr trivial
    · rw [step, hstage]
      refine stepWith_of_complete hread ?_
      simp only [valueLengthKnown, hpasses, if_true, skipValue, enter]

/-! ## Soundness -/

/-- The length of a coded string bounds the length of what the string stands for from both sides,
and the lower bound is computed without sticking for every string that can be decoded on a machine.
So if the least length of an announced literal exceeds the budget, or the size of the table, then so
does the literal itself. If the decoder passes the literal over, then reading it would deliver
nothing and leave the same table and the same budget. -/
theorem refusals_by_least_length_are_sound :
    (∀ coded octets, Huffman.decode coded = .ok octets →
      StringLiteral.minimumDecodedLength true coded.length ≤ coded.length * 8 / 30 ∧
        coded.length * 8 / 30 ≤ octets.length ∧ octets.length ≤ coded.length * 8 / 5 ∧
        (coded ≠ [] → octets ≠ [])) ∧
    (∀ coded octets, Checked.HuffmanDecoding.decode coded = some (.ok octets) →
      Huffman.decode coded = .ok octets ∧
        StringLiteral.minimumDecodedLength true coded.length = coded.length * 8 / 30) ∧
    ∀ (decoder : Decoder) (unread : Octets) (indexing : Indexing) (least : Nat) (field : Field),
      decoder.Announces unread indexing least field →
        (decoder.budget.admits least = false → decoder.budget.admits field.length = false) ∧
        (decoder.table.capacity < least + Field.overhead → decoder.table.capacity < field.size) ∧
        ((decoder.passesOver indexing least).1 = true →
          ∃ next rest, decoder.step unread = .advanced next none rest ∧
            (next.stage = .boundary ∨ next.stage.IsSkipping) ∧
            decoder.deliverLiteral indexing field = ({ next with stage := .boundary }, none)) := by
  refine ⟨fun coded octets hdecode ↦ ?_, fun coded octets hchecked ↦ ?_, ?_⟩
  · obtain ⟨hmost, hleast⟩ := Huffman.length_bounds_of_decode hdecode
    have hatLeast : coded.length * 8 / 30 ≤ octets.length := by omega
    have hatMost : octets.length ≤ coded.length * 8 / 5 := by omega
    exact ⟨StringLiteral.minimumDecodedLength_true_le coded.length, hatLeast, hatMost,
      Huffman.ne_nil_of_decode hdecode⟩
  · obtain ⟨hlength, hdecode⟩ := Checked.HuffmanDecoding.decode_eq_some_iff.1 hchecked
    exact ⟨hdecode, StringLiteral.minimumDecodedLength_true_eq hlength⟩
  · intro decoder unread indexing least field hannounces
    have hleast := hannounces.least_le
    refine ⟨Budget.admits_eq_false_of_le hleast, fun hcapacity ↦ ?_, fun hpasses ↦ ?_⟩
    · exact Nat.lt_of_lt_of_le hcapacity (Nat.add_le_add_right hleast Field.overhead)
    · obtain ⟨stage, rest, hstage, hstep⟩ := hannounces.exists_step hpasses
      exact ⟨_, rest, hstep, hstage, deliverLiteral_of_passesOver hpasses hleast⟩

/-- Four codewords of 30 bits fill 15 octets, so that the lower bound is reached. The budget and the
table are one octet too small for it, and nothing of the name has arrived. -/
theorem refusals_by_least_length_are_sound_of_longest_codewords :
    let payload : Octets := [0xff, 0xff, 0xff, 0xf3, 0xff, 0xff, 0xff, 0xcf, 0xff, 0xff, 0xff, 0x3f,
      0xff, 0xff, 0xfc]
    let name : Octets := [0x0a, 0x0a, 0x0a, 0x0a]
    let least := StringLiteral.minimumDecodedLength true payload.length
    let field : Field := ⟨name, [0x61]⟩
    let decoder : Decoder :=
      { ofSettings { listSizeLimit := 3, tableSizeLimit := 35 } with
        stage := .nameLength .incremental .opening }
    Huffman.decode payload = .ok name ∧ least = 4 ∧ least = payload.length * 8 / 30 ∧
      payload.length * 8 / 30 ≤ name.length ∧ name.length ≤ payload.length * 8 / 5 ∧ name ≠ [] ∧
      decoder.Announces [0x8f] .incremental least field ∧
      decoder.budget.admits least = false ∧ decoder.budget.admits field.length = false ∧
      decoder.table.capacity < least + Field.overhead ∧ decoder.table.capacity < field.size ∧
      ∃ next rest, decoder.step [0x8f] = .advanced next none rest ∧
        (next.stage = .boundary ∨ next.stage.IsSkipping) ∧
        decoder.deliverLiteral .incremental field = ({ next with stage := .boundary }, none) := by
  intro payload name least field decoder
  obtain ⟨hbounds, hmachine, hrefusals⟩ := refusals_by_least_length_are_sound
  have hcoded : payload = Huffman.encode name := by decide +kernel
  have hdecode : Huffman.decode payload = .ok name := by
    rw [hcoded]
    exact Huffman.decode_encode name
  have hchecked : Checked.HuffmanDecoding.decode payload = some (.ok name) :=
    Checked.HuffmanDecoding.decode_eq_some_iff.2 ⟨by decide, hdecode⟩
  have hname : StringLiteral.textOf true payload = .ok name := by
    rw [StringLiteral.textOf, if_pos rfl, hdecode]
  have hread : LengthPart.opening.read [0x8f] = .complete (.known true payload.length) [] := rfl
  have hannounces : decoder.Announces [0x8f] .incremental least field :=
    .nameLength rfl hread (List.cons_ne_nil _ _) hname [0x61]
  have hrefused : decoder.budget.admits least = false := by decide +kernel
  have hcapacity : decoder.table.capacity < least + Field.overhead := by decide +kernel
  have hpasses : (decoder.passesOver .incremental least).1 = true :=
    passesOver_eq_true_iff.2 ⟨hrefused, fun _ ↦ hcapacity⟩
  obtain ⟨-, hatLeast, hatMost, hsome⟩ := hbounds payload name hdecode
  obtain ⟨hbudget, htable, hskips⟩ := hrefusals decoder [0x8f] .incremental least field hannounces
  exact ⟨hdecode, by decide +kernel, (hmachine payload name hchecked).2, hatLeast, hatMost,
    hsome (List.cons_ne_nil _ _), hannounces, hrefused, hbudget hrefused, hcapacity,
    htable hcapacity, hskips hpasses⟩

end Decoder

end HeaderCompression
