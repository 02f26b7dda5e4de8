import HeaderCompression.Proofs.Block.Buffering
import HeaderCompression.Proofs.Checked.Decoding

/-!
# Histories without a failing operation

The octets that a reader has received bound everything that it counts: the storage of its queue, and
the insertions together with the octets still to be read. As long as fewer than `2 ^ 60` octets have
been received and every limit is below half a word, no operation on words, places or shifts fails,
whatever the octets are and whatever errors they have led to.
-/

namespace HeaderCompression.Block.Reader

open Octets Table Checked

/-! ## Operations -/

/-- Perform an operation with checked operations only. -/
def checkedPerform (reader : Reader) : Operation → Option Reader
  | .receive octets => do
    let input ← Input.append reader.input octets
    return { reader with input }
  | .decode fragment => do
    let input ← Input.append reader.input fragment
    let decoded ← Decoding.decode reader.decoder input
    return ⟨decoded.1.decoder, decoded.2⟩
  | .resize capacity => do
    let resized ← Rules.resize reader.decoder capacity
    return { reader with decoder := resized.toOption.getD reader.decoder }
  | .setTableSizeLimit limit => do
    let decoder ← Rules.setTableSizeLimit reader.decoder limit
    return { reader with decoder }
  | .endBlock => some (reader.perform .endBlock)
  | .clearInput => do
    let _ ← Input.available reader.input
    return reader.perform .clearInput
  | .setPolicy policy => some (reader.perform (.setPolicy policy))

/-- The number of octets that an operation brings. -/
def Operation.received : Operation → Nat
  | .receive octets => octets.length
  | .decode fragment => fragment.length
  | _ => 0

/-- The number of octets that a history brings. -/
def received : List Operation → Nat
  | [] => 0
  | operation :: operations => operation.received + received operations

/-! ## What the octets received bound -/

/-- The queue and the insertions are accounted for by the octets received. -/
structure Within (octets : Nat) (reader : Reader) : Prop where
  valid : reader.decoder.Valid
  kept : reader.decoder.TableKept
  counted : reader.decoder.Counted
  marked : reader.input.IsMarked
  position_le : reader.input.position ≤ reader.input.storage.size
  size_le : reader.input.storage.size ≤ octets
  room : reader.decoder.table.inserted + reader.input.unread.length ≤ octets

variable {reader : Reader} {octets : Nat}

theorem Within.ready (hwithin : reader.Within octets) (hoctets : octets < Bits.values 60) :
    reader.decoder.Ready where
  valid := hwithin.valid
  kept := hwithin.kept
  counted := hwithin.counted
  inserted_lt := by
    have hroom := hwithin.room
    omega

theorem Within.inOrder (hwithin : reader.Within octets) (hoctets : octets < Bits.values 60) :
    Input.InOrder reader.input where
  position_le := hwithin.position_le
  size_lt := Nat.lt_of_le_of_lt hwithin.size_le hoctets

theorem within_ofSettings {settings : DecoderSettings}
    (hlimit : settings.tableSizeLimit < Bits.values 63) : (ofSettings settings).Within 0 where
  valid := .ofSettings settings
  kept := .ofSettings settings
  counted := .ofSettings hlimit
  marked := Queue.isMarked_empty
  position_le := Nat.le_refl 0
  size_le := Nat.le_refl 0
  room := Nat.le_refl 0

theorem perform_decode (reader : Reader) (fragment : Octets) :
    reader.perform (.decode fragment) =
      ⟨(reader.decoder.decode (reader.input.append fragment)).1.decoder,
        (reader.decoder.decode (reader.input.append fragment)).2⟩ := by
  unfold perform decode
  dsimp only
  split <;> rfl

theorem Within.receive (hwithin : reader.Within octets) (arriving : Octets) :
    (reader.perform (.receive arriving)).Within (octets + arriving.length) := by
  have hposition := hwithin.position_le
  have hsize := hwithin.size_le
  have hroom := hwithin.room
  refine ⟨hwithin.valid, hwithin.kept, hwithin.counted,
    Queue.isMarked_append hwithin.marked arriving, ?_, ?_, ?_⟩
  · have hstart : reader.input.position - reader.input.mark = 0 := by
      rw [hwithin.marked, Nat.sub_self]
    exact Nat.le_trans (Nat.le_of_eq hstart) (Nat.zero_le _)
  · have hstorage : (reader.input.append arriving).storage.size =
        reader.input.storage.size - reader.input.mark + arriving.length := by
      simp [Queue.append]
    rw [perform, hstorage]
    omega
  · rw [perform, Queue.unread_append hwithin.marked, List.length_append]
    dsimp only
    omega

theorem Within.decode (hwithin : reader.Within octets) (fragment : Octets) :
    (reader.perform (.decode fragment)).Within (octets + fragment.length) := by
  have hreceived := hwithin.receive fragment
  have hconsumed := Decoder.inserted_add_length_consume_le hwithin.valid
    (reader.input.append fragment).unread
  have hunread := Decoder.unread_decode hwithin.valid (reader.input.append fragment)
  rw [perform_decode]
  exact
    { valid := hwithin.valid.run _ _
      kept := hwithin.kept.run hwithin.valid _ _
      counted := hwithin.counted.run hwithin.valid hwithin.kept _ _
      marked := Decoder.isMarked_decode _ _
      position_le := Nat.sub_le _ _
      size_le := hreceived.size_le
      room := by
        rw [hunread]
        exact Nat.le_trans hconsumed hreceived.room }

/-- A decoder that has inserted as much takes the place of the decoder. -/
theorem Within.withDecoder (hwithin : reader.Within octets) {decoder : Decoder}
    (hvalid : decoder.Valid) (hkept : decoder.TableKept) (hcounted : decoder.Counted)
    (hinserted : decoder.table.inserted = reader.decoder.table.inserted) :
    Within octets { reader with decoder } := by
  have hroom := hwithin.room
  rw [← hinserted] at hroom
  exact { hwithin with valid := hvalid, kept := hkept, counted := hcounted, room := hroom }

theorem Within.clearInput (hwithin : reader.Within octets) :
    (reader.perform .clearInput).Within octets where
  valid := hwithin.valid
  kept := hwithin.kept
  counted := hwithin.counted
  marked := Queue.isMarked_empty
  position_le := Nat.le_refl 0
  size_le := Nat.zero_le octets
  room := Nat.le_trans (Nat.add_le_add_left (Nat.zero_le _) _) hwithin.room

theorem inserted_setCapacity (table : DynamicTable) (capacity : Nat) :
    (table.setCapacity capacity).inserted = table.inserted :=
  (DynamicTable.sameSlots_setCapacity table capacity).inserted

theorem Within.resize (hwithin : reader.Within octets) (capacity : Nat) :
    (reader.perform (.resize capacity)).Within octets := by
  rw [perform]
  cases hresize : reader.decoder.resize capacity with
  | error error => exact hwithin
  | ok resized =>
    refine hwithin.withDecoder (hwithin.valid.resize hresize)
      (hwithin.kept.resize hwithin.valid hresize) (hwithin.counted.resize hresize) ?_
    unfold Decoder.resize at hresize
    split at hresize
    · cases hresize
    · obtain rfl := Except.ok.inj hresize
      exact inserted_setCapacity reader.decoder.table capacity

theorem Within.setTableSizeLimit (hwithin : reader.Within octets) {limit : Nat}
    (hlimit : limit < Bits.values 63) :
    (reader.perform (.setTableSizeLimit limit)).Within octets := by
  refine hwithin.withDecoder (hwithin.valid.setTableSizeLimit limit)
    (hwithin.kept.setTableSizeLimit hwithin.valid limit)
    (hwithin.counted.setTableSizeLimit hlimit) ?_
  unfold Decoder.setTableSizeLimit
  dsimp only
  split
  · exact inserted_setCapacity reader.decoder.table limit
  · rfl

theorem within_perform (hwithin : reader.Within octets) {operation : Operation}
    (hlimit : ∀ limit ∈ operation.limit?, limit < Bits.values 63) :
    (reader.perform operation).Within (octets + operation.received) := by
  cases operation with
  | receive arriving => exact hwithin.receive arriving
  | decode fragment => exact hwithin.decode fragment
  | endBlock =>
    exact hwithin.withDecoder hwithin.valid.endBlock hwithin.kept.endBlock hwithin.counted.endBlock
      rfl
  | clearInput => exact hwithin.clearInput
  | resize capacity => exact hwithin.resize capacity
  | setTableSizeLimit limit => exact hwithin.setTableSizeLimit (hlimit limit rfl)
  | setPolicy policy =>
    exact hwithin.withDecoder (hwithin.valid.setPolicy policy) (hwithin.kept.setPolicy policy)
      (hwithin.counted.setPolicy policy) rfl

/-! ## Histories -/

/-- An operation on a reader fails in nothing. -/
theorem checkedPerform_eq (hwithin : reader.Within octets) {operation : Operation}
    (hlimit : ∀ limit ∈ operation.limit?, limit < Bits.values 63)
    (hoctets : octets + operation.received < Bits.values 60) :
    reader.checkedPerform operation = some (reader.perform operation) := by
  have hready := hwithin.ready (Nat.lt_of_le_of_lt (Nat.le_add_right _ _) hoctets)
  have horder := hwithin.inOrder (Nat.lt_of_le_of_lt (Nat.le_add_right _ _) hoctets)
  cases operation with
  | receive arriving =>
    rw [checkedPerform, bind_of_eq_some (Input.append_eq horder hwithin.marked arriving)]
    rfl
  | decode fragment =>
    have hreceived := hwithin.receive fragment
    have hdecode := Decoding.decode_eq (hreceived.ready hoctets) (hreceived.inOrder hoctets)
      (Nat.lt_of_le_of_lt hreceived.room hoctets)
    rw [checkedPerform, bind_of_eq_some (Input.append_eq horder hwithin.marked fragment),
      perform_decode]
    exact (bind_of_eq_some hdecode _).trans rfl
  | endBlock => rfl
  | clearInput =>
    rw [checkedPerform, bind_of_eq_some (Input.available_eq horder)]
    rfl
  | resize capacity =>
    rw [checkedPerform, bind_of_eq_some (Rules.resize_eq hready capacity)]
    rfl
  | setTableSizeLimit limit =>
    rw [checkedPerform, bind_of_eq_some (Rules.setTableSizeLimit_eq hready (hlimit limit rfl))]
    rfl
  | setPolicy policy => rfl

theorem foldlM_checkedPerform_eq (hwithin : reader.Within octets) {operations : List Operation}
    (hlimits : ∀ limit ∈ operations.filterMap Operation.limit?, limit < Bits.values 63)
    (hoctets : octets + received operations < Bits.values 60) :
    operations.foldlM checkedPerform reader = some (operations.foldl perform reader) ∧
      (operations.foldl perform reader).Within (octets + received operations) := by
  induction operations generalizing reader octets with
  | nil => exact ⟨rfl, hwithin⟩
  | cons operation operations hrec =>
    have hfirst : ∀ limit ∈ operation.limit?, limit < Bits.values 63 := by
      intro limit hlimit
      exact hlimits limit (List.mem_filterMap.2 ⟨operation, List.mem_cons_self, hlimit⟩)
    have hothers : ∀ limit ∈ operations.filterMap Operation.limit?, limit < Bits.values 63 := by
      intro limit hlimit
      obtain ⟨later, hlater, hset⟩ := List.mem_filterMap.1 hlimit
      exact hlimits limit (List.mem_filterMap.2 ⟨later, List.mem_cons_of_mem _ hlater, hset⟩)
    rw [received, ← Nat.add_assoc] at hoctets ⊢
    rw [List.foldlM_cons, List.foldl_cons,
      bind_of_eq_some (checkedPerform_eq hwithin hfirst (by omega))]
    exact hrec (within_perform hwithin hfirst) hothers hoctets

/-- After any history with limits below half a word and fewer than `2 ^ 60` octets, all operations
on words, places and shifts have had results, and so have those of every lookup and of an eviction
in the table that was reached. -/
theorem no_operation_fails_in_history (settings : DecoderSettings) (operations : List Operation)
    (hsize : settings.tableSizeLimit < Bits.values 63)
    (hlimits : ∀ limit ∈ operations.filterMap Operation.limit?, limit < Bits.values 63)
    (hreceived : received operations < Bits.values 60) :
    let reader := operations.foldl perform (ofSettings settings)
    let table := reader.decoder.table
    operations.foldlM checkedPerform (ofSettings settings) = some reader ∧
      (∀ index, Table.get table index = some (table.get? index)) ∧
      (∀ name, Table.findName table name = some (table.findName? name)) ∧
      (∀ field, Table.find table field = some (table.find? field)) ∧
      Table.remove table = some table.evictOldest? := by
  have hoctets : 0 + received operations < Bits.values 60 := by rwa [Nat.zero_add]
  obtain ⟨hperform, hwithin⟩ :=
    foldlM_checkedPerform_eq (within_ofSettings hsize) hlimits hoctets
  have hwords := (hwithin.ready hoctets).table
  exact ⟨hperform, hwords.get_eq, hwords.findName_eq, hwords.find_eq, hwords.remove_eq⟩

/-- A coded literal is inserted, its table is shrunk, an index leads nowhere, and decoding goes on
with a name that is passed over. -/
theorem no_operation_fails_in_history_of_illegal_index :
    let settings : DecoderSettings := { listSizeLimit := 4, tableSizeLimit := 64 }
    let operations : List Operation :=
      [.decode [0x40, 0x81, 0x1F, 0x01, 0x62], .setTableSizeLimit 40, .decode [0xBF],
        .decode [0x00, 0x09, 0x61], .endBlock]
    let reader := operations.foldl perform (ofSettings settings)
    let table := reader.decoder.table
    received operations < Bits.values 60 ∧
      operations.foldlM checkedPerform (ofSettings settings) = some reader ∧
      (∀ index, Table.get table index = some (table.get? index)) ∧
      (∀ name, Table.findName table name = some (table.findName? name)) ∧
      (∀ field, Table.find table field = some (table.find? field)) ∧
      Table.remove table = some table.evictOldest? :=
  ⟨by decide, no_operation_fails_in_history _ _ (by decide) (by decide) (by decide)⟩

end HeaderCompression.Block.Reader
