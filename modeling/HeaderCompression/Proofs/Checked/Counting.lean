import HeaderCompression.Proofs.Block.TableInvariant
import HeaderCompression.Proofs.Checked.DynamicTable

/-!
# What a decoder counts

A table inserts at most one entry for each octet that is read, and it never has more than twice as
many slots as there were insertions, the first few apart. Names are payloads of announced lengths or
names of entries, so they are short. As long as the limits and the octets are, every number of a
decoder is a word with room to spare.
-/

namespace HeaderCompression

open Octets Table Wire

namespace Table

/-! ## Slots and insertions -/

theorem RingBuffer.size_slots_push_le {α : Type} (ring : RingBuffer α) (entry : α) :
    (ring.push entry).slots.size ≤ max ring.slots.size (8 + 2 * ring.count) := by
  unfold RingBuffer.push
  split
  · rename_i hfull
    have hgrown : (ring.grow.fill entry).slots.size = max 8 (2 * ring.slots.size) := by
      rw [RingBuffer.fill, Array.size_setIfInBounds, RingBuffer.grow, Array.size_ofFn]
      rfl
    rw [hgrown]
    omega
  · rw [RingBuffer.fill, Array.size_setIfInBounds]
    exact Nat.le_max_left _ _

namespace DynamicTable

variable {table : DynamicTable}

/-- There are no more slots than the insertions account for. -/
def SlotsAccounted (table : DynamicTable) : Prop :=
  table.ring.slots.size ≤ 8 + 2 * table.inserted

/-- Evictions leave the slots and the number of insertions. -/
structure SameSlots (table next : DynamicTable) : Prop where
  slots : next.ring.slots.size = table.ring.slots.size
  inserted : next.inserted = table.inserted

theorem SameSlots.trans {next last : DynamicTable} (hfirst : table.SameSlots next)
    (hsecond : next.SameSlots last) : table.SameSlots last :=
  ⟨hsecond.slots.trans hfirst.slots, hsecond.inserted.trans hfirst.inserted⟩

theorem SameSlots.accounted {next : DynamicTable} (hsame : table.SameSlots next)
    (haccounted : table.SlotsAccounted) : next.SlotsAccounted := by
  rw [SlotsAccounted, hsame.slots, hsame.inserted]
  exact haccounted

theorem sameSlots_evictOldest? {removed : Field × DynamicTable}
    (hremove : table.evictOldest? = some removed) : table.SameSlots removed.2 := by
  obtain ⟨popped, hpop, rfl⟩ := Option.map_eq_some_iff.1 hremove
  obtain ⟨field, -, rfl⟩ := Option.map_eq_some_iff.1 hpop
  exact ⟨Array.size_setIfInBounds, rfl⟩

theorem sameSlots_evictOldest (table : DynamicTable) (count : Nat) :
    table.SameSlots (table.evictOldest count) := by
  induction count generalizing table with
  | zero => exact ⟨rfl, rfl⟩
  | succ count hcount =>
    rw [evictOldest]
    cases hremove : table.evictOldest? with
    | none => exact ⟨rfl, rfl⟩
    | some removed => exact (sameSlots_evictOldest? hremove).trans (hcount removed.2)

theorem sameSlots_makeRoom (policy : EvictionPolicy) (incoming rounds : Nat)
    (table : DynamicTable) : table.SameSlots (makeRoom policy incoming rounds table) := by
  induction rounds generalizing table with
  | zero => exact ⟨rfl, rfl⟩
  | succ rounds hrounds =>
    rw [makeRoom]
    split
    · exact (sameSlots_evictOldest table _).trans (hrounds _)
    · exact ⟨rfl, rfl⟩

theorem sameSlots_clear (table : DynamicTable) : table.SameSlots table.clear :=
  ⟨Array.size_replicate, rfl⟩

theorem sameSlots_setCapacity (table : DynamicTable) (capacity : Nat) :
    table.SameSlots (table.setCapacity capacity) := by
  have hroom := sameSlots_makeRoom .fifo 0 table.length { table with capacity }
  exact ⟨hroom.slots, hroom.inserted⟩

theorem inserted_add_le (table : DynamicTable) (field : Field) :
    (table.add field).inserted ≤ table.inserted + 1 := by
  rw [DynamicTable.add]
  split
  · exact Nat.le_succ _
  · have hsame := sameSlots_makeRoom table.policy field.size table.length table
    exact Nat.le_of_eq (congrArg Nat.succ hsame.inserted)

theorem WellFormed.slotsAccounted_add (htable : table.WellFormed)
    (haccounted : table.SlotsAccounted) (field : Field) : (table.add field).SlotsAccounted := by
  rw [DynamicTable.add]
  split
  · exact (sameSlots_clear table).accounted haccounted
  · have hsame := sameSlots_makeRoom table.policy field.size table.length table
    have hroom := htable.refines.makeRoom table.policy field.size
      (Nat.le_of_eq htable.refines.length_eq.symm)
    have hcount : (makeRoom table.policy field.size table.length table).ring.count ≤
        (makeRoom table.policy field.size table.length table).inserted :=
      Nat.le_trans (Nat.le_of_eq hroom.length_eq) hroom.length_le
    have hslots := hsame.accounted haccounted
    have hpush := RingBuffer.size_slots_push_le
      (makeRoom table.policy field.size table.length table).ring field
    unfold SlotsAccounted at hslots
    change _ ≤ 8 + 2 * ((makeRoom table.policy field.size table.length table).inserted + 1)
    exact Nat.le_trans hpush (by omega)

end DynamicTable

end Table

/-! ## Names -/

/-- Codewords have at least 5 bits, so no payload stands for more than twice its length. -/
theorem Wire.StringLiteral.length_le_of_readPayload {huffman : Bool} {length : Nat}
    {octets payload rest : Octets}
    (hread : readPayload huffman length octets = .complete payload rest) :
    payload.length ≤ 2 * length := by
  unfold readPayload at hread
  split at hread
  · cases hread
  · have htake : (octets.take length).length ≤ length := List.length_take_le _ _
    split at hread
    · split at hread
      · rename_i decoded hdecode
        obtain ⟨rfl, -⟩ := Octets.Reading.complete.inj hread
        have hlength := (Huffman.length_bounds_of_decode hdecode).1
        omega
      · cases hread
    · obtain ⟨rfl, -⟩ := Octets.Reading.complete.inj hread
      omega

/-- A name that is read or that an entry has is no longer than half a word counts. -/
def Octets.IsShort (octets : Octets) : Prop :=
  octets.length < Bits.values 63

theorem Table.IndexSpace.isShort_name {table : DynamicTable} (htable : table.WellFormed)
    (hcapacity : table.capacity < Bits.values 63) {index : Nat} {field : Field}
    (hfield : IndexSpace.resolve table index = .ok field) : field.name.IsShort := by
  have hstatic : ∀ entry ∈ StaticTable.entries.toList, entry.name.length < Bits.values 63 := by
    decide +kernel
  rcases IndexSpace.mem_of_resolve htable.refines hfield with hentry | hentry
  · exact hstatic field hentry
  · have hsize : field.size ≤ totalSize table.toList := Checked.Table.size_le_totalSize hentry
    have hfits : totalSize table.toList ≤ table.capacity := htable.fits
    unfold Field.size Field.length at hsize
    unfold Octets.IsShort
    omega

/-- The name of the literal being read is short, or its length is one that can be announced. -/
def Stage.IsShort : Stage → Prop
  | .name _ _ length => length ≤ StringLiteral.longestPayload
  | .valueLength _ (some octets) _ => octets.IsShort
  | .value _ octets _ _ => octets.IsShort
  | _ => True

namespace Decoder

variable {decoder : Decoder} {completed : Decoder × Option Header}

/-- The slots of the table are accounted for, and the limit and the name are short. -/
structure Counted (decoder : Decoder) : Prop where
  slots : decoder.table.SlotsAccounted
  limit_lt : decoder.tableSizeLimit < Bits.values 63
  stage : decoder.stage.IsShort

namespace Counted

theorem withStage (hcounted : decoder.Counted) {stage : Stage} (hstage : stage.IsShort) :
    Counted { decoder with stage } :=
  { hcounted with stage := hstage }

theorem decided (hcounted : decoder.Counted) {decided : Decoder}
    (hdecided : decoder.Decided decided) : decided.Counted := by
  cases hdecided with
  | undecided => exact hcounted
  | decision indexing length =>
    have hexhausted : Counted { decoder with budget := decoder.budget.exhaust } :=
      { hcounted with }
    unfold Decoder.passesOver
    split
    · exact hcounted
    · cases indexing with
      | without => exact hexhausted
      | never => exact hexhausted
      | incremental =>
        dsimp only
        split
        · have hslots := (DynamicTable.sameSlots_clear decoder.table).accounted hcounted.slots
          exact { hexhausted with slots := hslots }
        · exact hexhausted

theorem deliver (hcounted : decoder.Counted) (header : Header) :
    (decoder.deliver header).1.Counted := by
  unfold Decoder.deliver
  split
  · exact { hcounted with stage := trivial }
  · exact { hcounted with stage := trivial }

theorem deliverLiteral (hcounted : decoder.Counted) (hvalid : decoder.Valid) (indexing : Indexing)
    (field : Field) : (decoder.deliverLiteral indexing field).1.Counted := by
  have hdelivered := hcounted.deliver { field, sensitive := indexing = .never }
  have htable := (hvalid.deliver { field, sensitive := indexing = .never }).table
  unfold Decoder.deliverLiteral
  cases indexing with
  | without => exact hdelivered
  | never => exact hdelivered
  | incremental =>
    exact { hdelivered with slots := htable.slotsAccounted_add hdelivered.slots field }

theorem setCapacity (hcounted : decoder.Counted) (capacity : Nat) {limit : Nat}
    (hlimit : limit < Bits.values 63) :
    Counted { decoder with table := decoder.table.setCapacity capacity, tableSizeLimit := limit }
    where
  slots := (DynamicTable.sameSlots_setCapacity decoder.table capacity).accounted hcounted.slots
  limit_lt := hlimit
  stage := hcounted.stage

theorem move (hcounted : decoder.Counted) (hvalid : decoder.Valid) (hkept : decoder.TableKept)
    (hmove : decoder.Move completed) : completed.1.Counted := by
  have hcapacity := Nat.lt_of_le_of_lt hkept.capacity_le hcounted.limit_lt
  have hstage := hcounted.stage
  cases hmove with
  | index opening => exact hcounted.withStage trivial
  | indexed hfield => exact hcounted.deliver _
  | @resized capacity hlimit =>
    exact (hcounted.setCapacity capacity hcounted.limit_lt).withStage trivial
  | nameLength indexing part => exact hcounted.withStage trivial
  | nameIndexed indexing hfield =>
    exact hcounted.withStage (IndexSpace.isShort_name hvalid.table hcapacity hfield)
  | nameKept hdecided hpos hlongest =>
    exact (hcounted.decided (.of_eq hdecided)).withStage hlongest
  | nameSkipped hdecided hpos hlongest =>
    exact (hcounted.decided (.of_eq hdecided)).withStage trivial
  | nameRead hname hread hne =>
    rw [hname] at hstage
    have hlength := StringLiteral.length_le_of_readPayload hread
    have hlongest : StringLiteral.longestPayload = 2147483774 := rfl
    have hhalf := Checked.values_half
    unfold Stage.IsShort at hstage
    exact hcounted.withStage (Nat.lt_of_le_of_lt hlength (by omega))
  | nameDropped indexing => exact hcounted.withStage trivial
  | @valueLength indexing name? part hlength next =>
    rw [hlength] at hstage
    cases name? with
    | none => exact hcounted.withStage trivial
    | some name => exact hcounted.withStage hstage
  | valueKept hlength hdecided hpos hlongest =>
    rw [hlength] at hstage
    exact (hcounted.decided (.of_eq hdecided)).withStage hstage
  | valueEmpty hlength hdecided =>
    exact (hcounted.decided hdecided).deliverLiteral (hvalid.decided hdecided) _ _
  | valueRead hvalue value => exact hcounted.deliverLiteral hvalid _ _
  | valueSkipped hdecided hpos hlongest => exact (hcounted.decided hdecided).withStage trivial
  | valueDropped hdecided => exact (hcounted.decided hdecided).withStage trivial

theorem waits (hcounted : decoder.Counted) {next : Decoder} (hwaits : decoder.Waits next) :
    next.Counted := by
  cases hwaits with
  | unchanged => exact hcounted
  | skippedName hstage hpos hfewer => exact hcounted.withStage trivial
  | skippedValue hstage hpos hfewer => exact hcounted.withStage trivial

theorem run (hcounted : decoder.Counted) (hvalid : decoder.Valid) (hkept : decoder.TableKept)
    (steps : Nat) (unread : Octets) : (decoder.run steps unread).decoder.Counted := by
  -- An entry's name is short because the table is kept within its limit, so both go together.
  have hrun : (decoder.run steps unread).decoder.TableKept ∧
      (decoder.run steps unread).decoder.Counted :=
    run_induction (motive := fun decoder ↦ decoder.TableKept ∧ decoder.Counted)
      (fun _ _ hvalid hboth hmove ↦
        ⟨hboth.1.move hvalid hmove, hboth.2.move hvalid hboth.1 hmove⟩)
      (fun _ _ hboth hwaits ↦ ⟨hboth.1.waits hwaits, hboth.2.waits hwaits⟩)
      hvalid ⟨hkept, hcounted⟩ steps unread
  exact hrun.2

/-! ## Adjustments -/

theorem ofSettings {settings : DecoderSettings}
    (hlimit : settings.tableSizeLimit < Bits.values 63) :
    (Decoder.ofSettings settings).Counted where
  slots := Nat.zero_le _
  limit_lt := hlimit
  stage := trivial

theorem endBlock (hcounted : decoder.Counted) : decoder.endBlock.2.Counted :=
  { hcounted with stage := trivial }

theorem resize (hcounted : decoder.Counted) {capacity : Nat} {resized : Decoder}
    (hresize : decoder.resize capacity = .ok resized) : resized.Counted := by
  unfold Decoder.resize at hresize
  split at hresize
  · cases hresize
  · obtain rfl := Except.ok.inj hresize
    exact hcounted.setCapacity capacity hcounted.limit_lt

theorem setTableSizeLimit (hcounted : decoder.Counted) {limit : Nat}
    (hlimit : limit < Bits.values 63) : (decoder.setTableSizeLimit limit).Counted := by
  unfold Decoder.setTableSizeLimit
  split
  · exact hcounted.setCapacity limit hlimit
  · exact { hcounted with limit_lt := hlimit }

theorem setPolicy (hcounted : decoder.Counted) (policy : EvictionPolicy) :
    (decoder.setPolicy policy).Counted :=
  { hcounted with }

/-- The numbers of the table are words. -/
theorem table_inWords (hcounted : decoder.Counted) (hvalid : decoder.Valid)
    (hkept : decoder.TableKept) (hinserted : decoder.table.inserted < Bits.values 60) :
    Checked.Table.InWords decoder.table := by
  have hcapacity := Nat.lt_of_le_of_lt hkept.capacity_le hcounted.limit_lt
  have hlargest := Checked.largest_eq
  have hhalf := Checked.values_half
  have hsixty := Checked.values_sixty
  have hslots := hcounted.slots
  unfold DynamicTable.SlotsAccounted at hslots
  refine ⟨hvalid.table.refines, ?_, hcapacity, ?_, ?_⟩
  · rw [hvalid.table.size_eq]
    exact Nat.lt_of_le_of_lt hvalid.table.fits hcapacity
  · unfold Checked.Ring.InWords
    omega
  · omega

end Counted

/-! ## Insertions -/

theorem table_deliver (decoder : Decoder) (header : Header) :
    (decoder.deliver header).1.table = decoder.table := by
  unfold deliver
  split <;> rfl

theorem inserted_deliverLiteral_le (decoder : Decoder) (indexing : Indexing) (field : Field) :
    (decoder.deliverLiteral indexing field).1.table.inserted ≤ decoder.table.inserted + 1 := by
  unfold deliverLiteral
  cases indexing with
  | incremental =>
    dsimp only
    rw [table_deliver]
    exact DynamicTable.inserted_add_le decoder.table field
  | without =>
    dsimp only
    rw [table_deliver]
    exact Nat.le_succ _
  | never =>
    dsimp only
    rw [table_deliver]
    exact Nat.le_succ _

theorem Decided.inserted_eq {decided : Decoder} (hdecided : decoder.Decided decided) :
    decided.table.inserted = decoder.table.inserted := by
  cases hdecided with
  | undecided => rfl
  | decision indexing length =>
    unfold passesOver
    split
    · rfl
    · cases indexing with
      | without => rfl
      | never => rfl
      | incremental =>
        dsimp only
        split <;> rfl

theorem Decided.inserted_le {decided : Decoder} (hdecided : decoder.Decided decided) :
    decided.table.inserted ≤ decoder.table.inserted + 1 :=
  Nat.le_trans (Nat.le_of_eq hdecided.inserted_eq) (Nat.le_succ _)

/-- A step inserts at most one entry. -/
theorem Move.inserted_le (hmove : decoder.Move completed) :
    completed.1.table.inserted ≤ decoder.table.inserted + 1 := by
  cases hmove with
  | indexed hfield =>
    rw [table_deliver]
    exact Nat.le_succ _
  | @resized capacity hlimit =>
    have hsame := DynamicTable.sameSlots_setCapacity decoder.table capacity
    exact Nat.le_trans (Nat.le_of_eq hsame.inserted) (Nat.le_succ _)
  | nameKept hdecided hpos hlongest => exact (Decided.of_eq hdecided).inserted_le
  | nameSkipped hdecided hpos hlongest => exact (Decided.of_eq hdecided).inserted_le
  | valueKept hlength hdecided hpos hlongest => exact (Decided.of_eq hdecided).inserted_le
  | @valueEmpty indexing name part decided hlength hdecided =>
    have hdelivered := inserted_deliverLiteral_le decided indexing ⟨name, []⟩
    rwa [hdecided.inserted_eq] at hdelivered
  | valueRead hvalue value => exact inserted_deliverLiteral_le decoder _ _
  | valueSkipped hdecided hpos hlongest => exact hdecided.inserted_le
  | valueDropped hdecided => exact hdecided.inserted_le
  | _ => exact Nat.le_succ _

theorem Waits.table_eq {next : Decoder} (hwaits : decoder.Waits next) :
    next.table = decoder.table := by
  cases hwaits <;> rfl

/-- Every insertion is paid for by an octet that was read. -/
theorem inserted_add_length_consume_le (hvalid : decoder.Valid) (unread : Octets) :
    (decoder.consume unread).decoder.table.inserted + (decoder.consume unread).rest.length ≤
      decoder.table.inserted + unread.length := by
  induction decoder, unread, hvalid using consume_induction with
  | nil decoder hvalid => exact Nat.le_refl _
  | advanced decoder unread next header? rest hvalid hstep hrest =>
    have hinserted := (move_of_step hstep).inserted_le
    have hlength := length_lt_of_step_advanced hvalid.stage hstep
    rw [consume_advanced hvalid hstep]
    exact Nat.le_trans hrest (by dsimp only at hinserted; omega)
  | waiting decoder unread next rest hvalid hne hstep =>
    have hlength := (suffix_of_step_waiting hvalid.stage hstep).length_le
    rw [consume_waiting hvalid hne hstep]
    dsimp only
    rw [(waits_of_step hstep).table_eq]
    omega
  | failed decoder unread error rest hvalid hstep =>
    have hlength := (suffix_of_step_failed hvalid.stage hstep).length_le
    rw [consume_failed hvalid hstep]
    dsimp only
    omega

/-! ## Room -/

/-- Whatever comes next, the numbers of the decoder stay words. -/
structure Ready (decoder : Decoder) : Prop where
  valid : decoder.Valid
  kept : decoder.TableKept
  counted : decoder.Counted
  inserted_lt : decoder.table.inserted < Bits.values 60

namespace Ready

theorem table (hready : decoder.Ready) : Checked.Table.InWords decoder.table :=
  hready.counted.table_inWords hready.valid hready.kept hready.inserted_lt

theorem decided (hready : decoder.Ready) {decided : Decoder} (hdecided : decoder.Decided decided) :
    decided.Ready where
  valid := hready.valid.decided hdecided
  kept := hready.kept.decided hready.valid hdecided
  counted := hready.counted.decided hdecided
  inserted_lt := by
    rw [hdecided.inserted_eq]
    exact hready.inserted_lt

theorem advanced (hready : decoder.Ready) {next : Decoder} {header? : Option Header}
    {unread rest : Octets} (hstep : decoder.step unread = .advanced next header? rest)
    (hinserted : next.table.inserted < Bits.values 60) : next.Ready where
  valid := hready.valid.step_advanced hstep
  kept := hready.kept.move hready.valid (move_of_step hstep)
  counted := hready.counted.move hready.valid hready.kept (move_of_step hstep)
  inserted_lt := hinserted

end Ready

end Decoder

end HeaderCompression
