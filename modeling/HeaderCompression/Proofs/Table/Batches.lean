import HeaderCompression.Proofs.Table.Retention
import Mathlib.Logic.Function.Iterate

/-!
# Eviction in batches

A batch is as many entries as would make room if each had the average size, and one. The rounds end
with room for the new entry, and since the last batch may take more than was necessary, what is left
is a first part of what eviction one by one leaves. If the entries are as large as the average, one
batch is enough; if the average is larger than the capacity, every batch is a single entry.
-/

namespace HeaderCompression.Table

variable {entries : List Field} {incoming capacity average least : Nat}

/-! ## Entries of a least size -/

theorem mul_length_le_totalSize (hleast : ∀ entry ∈ entries, least ≤ entry.size) :
    least * entries.length ≤ totalSize entries := by
  induction entries with
  | nil => exact Nat.le_refl 0
  | cons entry entries hentries =>
    rw [List.forall_mem_cons] at hleast
    have hrest := hentries hleast.2
    rw [List.length_cons, totalSize, Nat.mul_succ]
    omega

/-- The entries that are left and those that are taken make up all. -/
theorem totalSize_take_add_drop (entries : List Field) (count : Nat) :
    totalSize (entries.take count) + totalSize (entries.drop count) = totalSize entries := by
  rw [← totalSize_append, List.take_append_drop]

/-! ## Rounds on lists -/

namespace ListTable

/-- However many entries a round takes, what is left in the end is left one by one too. -/
theorem makeRoom_isPrefix_makeRoom_fifo (policy : EvictionPolicy) (hincoming : incoming ≤ capacity)
    (entries : List Field) :
    makeRoom policy incoming capacity entries <+: makeRoom .fifo incoming capacity entries := by
  apply isPrefix_makeRoom_fifo_iff.2
  refine ⟨makeRoom_isPrefix policy incoming capacity entries, .inr ?_⟩
  exact totalSize_makeRoom_add_le policy hincoming entries

/-- One batch of entries that are not smaller than the average makes room. -/
theorem makeRoom_batched_of_large_entries (hincoming : incoming ≤ capacity)
    (hfull : capacity < totalSize entries + incoming)
    (hlarge : ∀ entry ∈ entries, max average 1 ≤ entry.size) :
    makeRoom (.batched average) incoming capacity entries =
      entries.take (entries.length -
        ((totalSize entries + incoming - capacity) / max average 1 + 1)) := by
  have hround : (EvictionPolicy.batched average).roundLength (totalSize entries) incoming capacity =
      (totalSize entries + incoming - capacity) / max average 1 + 1 :=
    if_pos (EvictionPolicy.overflows_iff.2 hfull)
  rw [makeRoom_round hfull, hround]
  generalize hbatch : (totalSize entries + incoming - capacity) / max average 1 + 1 = batch
  apply makeRoom_of_fits
  rw [Nat.not_lt]
  by_cases hall : entries.length ≤ batch
  · rw [Nat.sub_eq_zero_of_le hall, List.take_zero, totalSize]
    omega
  · have htaken : max average 1 * batch ≤ totalSize (entries.drop (entries.length - batch)) := by
      have hleast : max average 1 * (entries.drop (entries.length - batch)).length ≤
          totalSize (entries.drop (entries.length - batch)) :=
        mul_length_le_totalSize fun entry hentry ↦ hlarge entry (List.mem_of_mem_drop hentry)
      rwa [List.length_drop, Nat.sub_sub_self (by omega)] at hleast
    have henough : totalSize entries + incoming - capacity < max average 1 * batch := by
      rw [← hbatch]
      exact Nat.lt_mul_div_succ _ (by omega)
    have hsum := totalSize_take_add_drop entries (entries.length - batch)
    omega

/-- What is left and what the one batch takes make up all entries. -/
theorem length_makeRoom_batched_of_large_entries (hincoming : incoming ≤ capacity)
    (hfull : capacity < totalSize entries + incoming)
    (hlarge : ∀ entry ∈ entries, max average 1 ≤ entry.size) :
    (makeRoom (.batched average) incoming capacity entries).length +
        min entries.length ((totalSize entries + incoming - capacity) / max average 1 + 1) =
      entries.length := by
  rw [makeRoom_batched_of_large_entries hincoming hfull hlarge, List.length_take]
  generalize (totalSize entries + incoming - capacity) / max average 1 + 1 = batch
  omega

end ListTable

/-! ## Rounds on tables -/

namespace DynamicTable

variable {table : DynamicTable} {list : ListTable}

/-- One round that makes room for an entry. -/
def evictRound (policy : EvictionPolicy) (incoming : Nat) (table : DynamicTable) : DynamicTable :=
  table.evictOldest (policy.roundLength table.size incoming table.capacity)

/-- Some number of rounds, each of them called for, has made room. -/
structure EndsAfter (policy : EvictionPolicy) (incoming : Nat) (table : DynamicTable)
    (rounds : Nat) (left : DynamicTable) : Prop where
  left_eq : left = (evictRound policy incoming)^[rounds] table
  enough : EvictionPolicy.overflows left.size incoming left.capacity = false
  needed (fewer : Nat) : fewer < rounds →
    EvictionPolicy.overflows ((evictRound policy incoming)^[fewer] table).size incoming
      ((evictRound policy incoming)^[fewer] table).capacity = true

theorem Refines.evictRound (hrefines : table.Refines list) (policy : EvictionPolicy)
    (incoming : Nat) :
    (evictRound policy incoming table).Refines
      { list with
        entries := list.entries.take (list.entries.length -
          policy.roundLength (totalSize list.entries) incoming list.capacity) } := by
  rw [DynamicTable.evictRound, hrefines.size_eq, hrefines.capacity_eq]
  exact hrefines.evictOldest _

/-- A round that is called for leaves fewer entries, so there are no more rounds than entries. -/
theorem Refines.exists_endsAfter (hrefines : table.Refines list) (policy : EvictionPolicy)
    (hincoming : incoming ≤ list.capacity) {limit : Nat} (hlimit : list.entries.length ≤ limit) :
    ∃ rounds ≤ list.entries.length,
      EndsAfter policy incoming table rounds
        (DynamicTable.makeRoom policy incoming limit table) := by
  induction limit generalizing table list with
  | zero =>
    have hnil : list.entries = [] := List.eq_nil_of_length_eq_zero (Nat.le_zero.1 hlimit)
    have hfits : EvictionPolicy.overflows table.size incoming table.capacity = false := by
      rw [hrefines.size_eq, hrefines.capacity_eq, hnil]
      simpa [EvictionPolicy.overflows, totalSize] using hincoming
    exact ⟨0, Nat.zero_le _, rfl, hfits, fun fewer hfewer ↦ absurd hfewer (Nat.not_lt_zero fewer)⟩
  | succ limit hrec =>
    rw [DynamicTable.makeRoom]
    cases hfull : EvictionPolicy.overflows table.size incoming table.capacity with
    | false =>
      rw [if_neg Bool.false_ne_true]
      exact ⟨0, Nat.zero_le _, rfl, hfull, fun fewer hfewer ↦ absurd hfewer (Nat.not_lt_zero fewer)⟩
    | true =>
      have hround := hrefines.evictRound policy incoming
      rw [hrefines.size_eq, hrefines.capacity_eq] at hfull
      have hpos : 0 < policy.roundLength (totalSize list.entries) incoming list.capacity :=
        EvictionPolicy.roundLength_pos hfull
      have hsome : list.entries.length ≠ 0 := by
        intro hnone
        rw [List.eq_nil_of_length_eq_zero hnone, EvictionPolicy.overflows_iff, totalSize] at hfull
        omega
      have hfewer : (list.entries.take (list.entries.length -
          policy.roundLength (totalSize list.entries) incoming list.capacity)).length <
          list.entries.length := by
        rw [List.length_take]
        omega
      obtain ⟨rounds, hrounds, hends⟩ :=
        hrec hround hincoming (Nat.le_of_lt_succ (Nat.lt_of_lt_of_le hfewer hlimit))
      refine ⟨rounds + 1, Nat.lt_of_le_of_lt hrounds hfewer, ?_⟩
      rw [if_pos rfl]
      refine ⟨hends.left_eq, hends.enough, ?_⟩
      intro fewer hlt
      cases fewer with
      | zero => rwa [Function.iterate_zero_apply, hrefines.size_eq, hrefines.capacity_eq]
      | succ fewer =>
        rw [Function.iterate_succ_apply]
        exact hends.needed fewer (Nat.lt_of_succ_lt_succ hlt)

/-! ## Batches of one entry -/

/-- What there is too much of is less than the average, so a batch is one entry. -/
theorem roundLength_batched_eq_fifo {size : Nat} (hsmall : size + incoming < capacity + average) :
    (EvictionPolicy.batched average).roundLength size incoming capacity =
      EvictionPolicy.fifo.roundLength size incoming capacity := by
  have hquotient : (size + incoming - capacity) / max average 1 = 0 :=
    Nat.div_eq_of_lt (by omega)
  simp [EvictionPolicy.roundLength, hquotient]

theorem Refines.makeRoom_batched_eq_fifo (hrefines : table.Refines list)
    (hsmall : totalSize list.entries + incoming < list.capacity + average) (limit : Nat) :
    DynamicTable.makeRoom (.batched average) incoming limit table =
      DynamicTable.makeRoom .fifo incoming limit table := by
  induction limit generalizing table list with
  | zero => rfl
  | succ limit hrec =>
    have hround : (EvictionPolicy.batched average).roundLength table.size incoming table.capacity =
        EvictionPolicy.fifo.roundLength table.size incoming table.capacity := by
      rw [hrefines.size_eq, hrefines.capacity_eq]
      exact roundLength_batched_eq_fifo hsmall
    have hless (count : Nat) : totalSize (list.entries.take count) ≤ totalSize list.entries :=
      totalSize_le_of_isPrefix (List.take_prefix count list.entries)
    rw [DynamicTable.makeRoom, DynamicTable.makeRoom, hround]
    congr 1
    refine hrec (hrefines.evictOldest _) ?_
    exact Nat.lt_of_le_of_lt (Nat.add_le_add_right (hless _) incoming) hsmall

/-! ## The policy of a table -/

theorem evictOldest?_setPolicy (table : DynamicTable) (policy : EvictionPolicy) :
    (table.setPolicy policy).evictOldest? =
      table.evictOldest?.map fun evicted ↦ (evicted.1, evicted.2.setPolicy policy) := by
  unfold evictOldest? setPolicy
  cases table.ring.popOldest? <;> rfl

theorem evictOldest_setPolicy (table : DynamicTable) (policy : EvictionPolicy) (count : Nat) :
    (table.setPolicy policy).evictOldest count = (table.evictOldest count).setPolicy policy := by
  induction count generalizing table with
  | zero => rfl
  | succ count hcount =>
    rw [evictOldest, evictOldest, evictOldest?_setPolicy]
    cases table.evictOldest? with
    | none => rfl
    | some evicted => exact hcount evicted.2

/-- Rounds follow the policy that they are told, and not the one of the table. -/
theorem makeRoom_setPolicy (table : DynamicTable) (policy told : EvictionPolicy) (limit : Nat) :
    makeRoom told incoming limit (table.setPolicy policy) =
      (makeRoom told incoming limit table).setPolicy policy := by
  induction limit generalizing table with
  | zero => rfl
  | succ limit hrec =>
    have hsize : (table.setPolicy policy).size = table.size := rfl
    have hcapacity : (table.setPolicy policy).capacity = table.capacity := rfl
    rw [makeRoom, makeRoom, hsize, hcapacity, evictOldest_setPolicy, hrec]
    split <;> rfl

theorem add_of_size_le {field : Field} (hsize : field.size ≤ table.capacity) :
    table.add field =
      (makeRoom table.policy field.size table.length table).insertNewest field := by
  rw [add, if_neg (Nat.not_lt.2 hsize)]

/-- If the average is larger than the capacity, batches leave the same table as single entries. -/
theorem Refines.add_batched_eq_fifo (hrefines : table.Refines list) (hfits : list.Fits)
    {field : Field} (hsize : field.size ≤ list.capacity) (haverage : list.capacity < average) :
    (table.setPolicy (.batched average)).add field =
      ((table.setPolicy .fifo).add field).setPolicy (.batched average) := by
  have hsmall : totalSize list.entries + field.size < list.capacity + average :=
    Nat.add_lt_add_of_le_of_lt hfits (Nat.lt_of_le_of_lt hsize haverage)
  have hsame := hrefines.makeRoom_batched_eq_fifo hsmall table.length
  rw [← hrefines.capacity_eq] at hsize
  have hbatched : field.size ≤ (table.setPolicy (.batched average)).capacity := hsize
  have hsingle : field.size ≤ (table.setPolicy .fifo).capacity := hsize
  rw [add_of_size_le hbatched, add_of_size_le hsingle]
  calc
    (DynamicTable.makeRoom (.batched average) field.size table.length
        (table.setPolicy (.batched average))).insertNewest field =
        ((DynamicTable.makeRoom .fifo field.size table.length table).setPolicy
          (.batched average)).insertNewest field := by rw [makeRoom_setPolicy, hsame]
    _ = (((DynamicTable.makeRoom .fifo field.size table.length table).setPolicy
          .fifo).insertNewest field).setPolicy (.batched average) := rfl
    _ = ((DynamicTable.makeRoom .fifo field.size table.length
          (table.setPolicy .fifo)).insertNewest field).setPolicy (.batched average) := by
      rw [makeRoom_setPolicy]

/-! ## After any operations -/

theorem fits_perform {list : ListTable} (hfits : list.Fits) (operation : Operation) :
    (list.perform operation).Fits := by
  cases operation with
  | add field => exact list.fits_add field
  | removeOldest =>
    exact Nat.le_trans (totalSize_le_of_isPrefix list.entries.dropLast_prefix) hfits
  | clear => exact list.fits_clear
  | setCapacity capacity => exact list.fits_setCapacity capacity
  | setPolicy policy => exact hfits

theorem fits_foldl_perform {list : ListTable} (hfits : list.Fits) (operations : List Operation) :
    (operations.foldl ListTable.perform list).Fits := by
  induction operations generalizing list with
  | nil => exact hfits
  | cons operation operations hoperations => exact hoperations (fits_perform hfits operation)

/-- Whatever has happened to a table, the rounds of an addition in batches end with room for the
field. What is left behind the field is a first part of the entries, fits together with it, and is
left one by one too. One batch is all that leaves if no entry is smaller than the average, and
the table is the one of single evictions if the average is larger than the capacity. -/
theorem batches_end_with_room (capacity : Nat) (policy : EvictionPolicy)
    (operations : List Operation) (average : Nat) (field : Field) :
    let table := operations.foldl perform (ofCapacity capacity policy)
    let batched := (table.setPolicy (.batched average)).add field
    let single := (table.setPolicy .fifo).add field
    let overflow := table.size + field.size - table.capacity
    field.size ≤ table.capacity →
      (∃ rounds ≤ table.length, ∃ left,
        EndsAfter (.batched average) field.size (table.setPolicy (.batched average)) rounds left ∧
          batched = left.insertNewest field) ∧
      (∃ kept retained, batched.toList = field :: kept ∧ kept <+: table.toList ∧
        totalSize (field :: kept) ≤ table.capacity ∧
        single.toList = field :: retained ∧ kept <+: retained ∧
        (0 < overflow → (∀ entry ∈ table.toList, max average 1 ≤ entry.size) →
          kept.length + min table.length (overflow / max average 1 + 1) = table.length)) ∧
      (table.capacity < average → batched = single.setPolicy (.batched average)) := by
  intro table batched single overflow hsize
  have hrefines := (refines_ofCapacity capacity policy).foldl_perform operations
  have hempty : ListTable.Fits ⟨[], capacity, policy⟩ := Nat.zero_le capacity
  have hfits := fits_foldl_perform hempty operations
  generalize operations.foldl ListTable.perform ⟨[], capacity, policy⟩ = list at hrefines hfits
  change table.Refines list at hrefines
  have hbatched := hrefines.setPolicy (.batched average)
  have hsingle := hrefines.setPolicy .fifo
  have hadded : batched = _ := add_of_size_le hsize
  rw [hrefines.capacity_eq] at hsize
  have hbatchedEntries := (hbatched.add field).toList_eq.trans (ListTable.entries_add hsize)
  have hsingleEntries := (hsingle.add field).toList_eq.trans (ListTable.entries_add hsize)
  refine ⟨?_, ⟨_, _, hbatchedEntries, ?_, ?_, hsingleEntries, ?_, ?_⟩, ?_⟩
  · obtain ⟨rounds, hrounds, hends⟩ := hbatched.exists_endsAfter (.batched average) hsize
      (Nat.le_of_eq hbatched.length_eq.symm)
    rw [hrefines.length_eq]
    exact ⟨rounds, hrounds, _, hends, hadded⟩
  · rw [hrefines.toList_eq]
    exact ListTable.makeRoom_isPrefix _ _ _ _
  · have hroom := ListTable.totalSize_makeRoom_add_le (.batched average) hsize list.entries
    rw [totalSize, hrefines.capacity_eq, Nat.add_comm]
    exact hroom
  · exact ListTable.makeRoom_isPrefix_makeRoom_fifo (.batched average) hsize list.entries
  · intro hoverflow hlarge
    have hoverflow_eq : overflow = totalSize list.entries + field.size - list.capacity := by
      rw [← hrefines.size_eq, ← hrefines.capacity_eq]
    rw [hrefines.toList_eq] at hlarge
    rw [hoverflow_eq] at hoverflow ⊢
    rw [hrefines.length_eq]
    exact ListTable.length_makeRoom_batched_of_large_entries hsize (Nat.lt_of_sub_pos hoverflow)
      hlarge
  · intro haverage
    rw [hrefines.capacity_eq] at haverage
    exact hrefines.add_batched_eq_fifo hfits hsize haverage

/-- The average is too large for these entries, so a second batch of one is needed. -/
theorem batches_end_with_room_of_small_entries :
    let operations : List Operation :=
      [.add ⟨[0x61], []⟩, .add ⟨[0x62], []⟩, .add ⟨[0x63], []⟩]
    let table := operations.foldl perform (ofCapacity 100 .fifo)
    let field : Field := ⟨[0x64, 0x64, 0x64], []⟩
    let batched := (table.setPolicy (.batched 60)).add field
    field.size ≤ table.capacity ∧ batched.toList = [field, ⟨[0x63], []⟩] ∧
      ∃ rounds ≤ table.length, ∃ left,
        EndsAfter (.batched 60) field.size (table.setPolicy (.batched 60)) rounds left ∧
          batched = left.insertNewest field := by
  intro operations table field batched
  have hsize : field.size ≤ table.capacity := by decide +kernel
  have hentries : batched.toList = [field, ⟨[0x63], []⟩] := by decide +kernel
  exact ⟨hsize, hentries, (batches_end_with_room 100 .fifo operations 60 field hsize).1⟩

end DynamicTable

end HeaderCompression.Table
