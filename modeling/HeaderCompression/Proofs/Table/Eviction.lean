import HeaderCompression.Proofs.Table.ListTable
import Mathlib.Data.List.Induction

/-!
# What eviction keeps

Rounds take entries away at the old end, so what they leave is a first part of the entries. With one
entry a round it is the longest first part that fits, so a shorter table or a smaller capacity never
leaves more, and eviction to several capacities is eviction to the least of them.
-/

namespace HeaderCompression.Table

variable {entries others kept : List Field}

/-! ## First parts of a table -/

theorem totalSize_le_of_isPrefix (hkept : kept <+: entries) :
    totalSize kept ≤ totalSize entries := by
  obtain ⟨others, rfl⟩ := hkept
  induction kept with
  | nil => exact Nat.zero_le _
  | cons entry kept hrest => exact Nat.add_le_add_left hrest entry.size

/-- Lists with the same first parts are the same. -/
theorem eq_of_isPrefix_iff (hparts : ∀ kept, kept <+: entries ↔ kept <+: others) :
    entries = others := by
  have hforth : entries <+: others := (hparts entries).1 List.prefix_rfl
  have hback : others <+: entries := (hparts others).2 List.prefix_rfl
  exact hforth.eq_of_length_le hback.length_le

namespace ListTable

theorem makeRoom_isPrefix (policy : EvictionPolicy) (incoming capacity : Nat)
    (entries : List Field) : makeRoom policy incoming capacity entries <+: entries := by
  fun_induction makeRoom policy incoming capacity entries with
  | case1 entries hround hrest =>
    have htake := List.take_prefix
      (entries.length - policy.roundLength (totalSize entries) incoming capacity) entries
    exact hrest.trans htake
  | case2 entries hfits => exact List.prefix_rfl

/-! ## One entry a round -/

theorem makeRoom_fifo_append_singleton {incoming capacity : Nat} {oldest : Field}
    (hfull : capacity < totalSize (entries ++ [oldest]) + incoming) :
    makeRoom .fifo incoming capacity (entries ++ [oldest]) =
      makeRoom .fifo incoming capacity entries := by
  have hround : EvictionPolicy.fifo.roundLength (totalSize (entries ++ [oldest])) incoming
      capacity = 1 := if_pos (EvictionPolicy.overflows_iff.2 hfull)
  rw [makeRoom_round hfull, hround, ← List.dropLast_eq_take, List.dropLast_concat]

/-- Among the first parts of the entries, exactly those that fit are left. Nothing is left if the
entry to come does not fit by itself. -/
theorem isPrefix_makeRoom_fifo_iff {incoming capacity : Nat} :
    kept <+: makeRoom .fifo incoming capacity entries ↔
      kept <+: entries ∧ (kept = [] ∨ totalSize kept + incoming ≤ capacity) := by
  induction entries using List.reverseRecOn with
  | nil =>
    rw [makeRoom_nil, List.prefix_nil]
    exact (and_iff_left_of_imp .inl).symm
  | append_singleton newer oldest hnewer =>
    by_cases hfull : capacity < totalSize (newer ++ [oldest]) + incoming
    · rw [makeRoom_fifo_append_singleton hfull, hnewer, List.prefix_concat_iff]
      refine and_congr_left fun hfits ↦ (or_iff_right ?_).symm
      rintro rfl
      -- All entries together do not fit, so they are no part of what is left.
      rcases hfits with hnil | hfits
      · exact absurd hnil (List.append_ne_nil_of_right_ne_nil newer (List.cons_ne_nil oldest []))
      · omega
    · rw [makeRoom_of_fits hfull]
      refine (and_iff_left_of_imp fun hkept ↦ .inr ?_).symm
      have hsize := totalSize_le_of_isPrefix hkept
      omega

/-- Eviction leaves less of a shorter table and less in a smaller one. -/
theorem makeRoom_fifo_mono {incoming small large : Nat} (hentries : entries <+: others)
    (hcapacity : small ≤ large) :
    makeRoom .fifo incoming small entries <+: makeRoom .fifo incoming large others := by
  have hself : makeRoom .fifo incoming small entries <+: makeRoom .fifo incoming small entries :=
    List.prefix_rfl
  obtain ⟨hkept, hfits⟩ := isPrefix_makeRoom_fifo_iff.1 hself
  apply isPrefix_makeRoom_fifo_iff.2
  exact ⟨hkept.trans hentries, hfits.imp_right fun hsmall ↦ Nat.le_trans hsmall hcapacity⟩

/-- The first parts that are left in a capacity are those that fit in it. -/
theorem isPrefix_setCapacity_iff {table : ListTable} {capacity : Nat} :
    kept <+: (table.setCapacity capacity).entries ↔
      kept <+: table.entries ∧ totalSize kept ≤ capacity := by
  rw [setCapacity, isPrefix_makeRoom_fifo_iff, Nat.add_zero]
  refine and_congr_right fun _ ↦ or_iff_right_of_imp ?_
  rintro rfl
  exact Nat.zero_le capacity

/-- A detour through a larger capacity makes no difference. -/
theorem setCapacity_setCapacity (table : ListTable) {small large : Nat}
    (hcapacity : small ≤ large) :
    (table.setCapacity large).setCapacity small = table.setCapacity small := by
  have hentries : ((table.setCapacity large).setCapacity small).entries =
      (table.setCapacity small).entries := by
    apply eq_of_isPrefix_iff
    intro kept
    rw [isPrefix_setCapacity_iff, isPrefix_setCapacity_iff, isPrefix_setCapacity_iff, and_assoc]
    exact and_congr_right fun _ ↦
      and_iff_right_of_imp fun hsize ↦ Nat.le_trans hsize hcapacity
  exact congrArg (ListTable.mk · small table.policy) hentries

/-! ## Several capacities -/

section Several

variable {table : ListTable} {capacities : List Nat} {smallest latest : Nat}

/-- The first parts that are left after several capacities are those that fit in each of them. -/
theorem isPrefix_foldl_setCapacity_iff :
    kept <+: (capacities.foldl setCapacity table).entries ↔
      kept <+: table.entries ∧ ∀ capacity ∈ capacities, totalSize kept ≤ capacity := by
  induction capacities generalizing table with
  | nil => simp
  | cons capacity capacities hcapacities =>
    rw [List.foldl_cons, hcapacities, isPrefix_setCapacity_iff, List.forall_mem_cons, and_assoc]

theorem capacity_foldl_setCapacity (hlatest : capacities.getLast? = some latest) :
    (capacities.foldl setCapacity table).capacity = latest := by
  obtain ⟨earlier, rfl⟩ := List.getLast?_eq_some_iff.1 hlatest
  rw [List.foldl_append]
  rfl

theorem policy_foldl_setCapacity (table : ListTable) (capacities : List Nat) :
    (capacities.foldl setCapacity table).policy = table.policy := by
  induction capacities generalizing table with
  | nil => rfl
  | cons capacity capacities hcapacities => exact hcapacities (table.setCapacity capacity)

/-- Of several capacities, the smallest decides what is left, and the latest is what stays. -/
theorem foldl_setCapacity_eq (hsmallest : capacities.min? = some smallest)
    (hlatest : capacities.getLast? = some latest) :
    capacities.foldl setCapacity table = (table.setCapacity smallest).setCapacity latest := by
  have hle : smallest ≤ latest :=
    (List.le_min?_iff hsmallest).1 (Nat.le_refl smallest) latest (List.mem_of_getLast? hlatest)
  have hentries : (capacities.foldl setCapacity table).entries =
      ((table.setCapacity smallest).setCapacity latest).entries := by
    apply eq_of_isPrefix_iff
    intro kept
    rw [isPrefix_foldl_setCapacity_iff, isPrefix_setCapacity_iff, isPrefix_setCapacity_iff,
      ← List.le_min?_iff hsmallest, and_assoc]
    exact and_congr_right fun _ ↦ (and_iff_left_of_imp fun hsize ↦ Nat.le_trans hsize hle).symm
  calc
    capacities.foldl setCapacity table
      = ⟨(capacities.foldl setCapacity table).entries,
          (capacities.foldl setCapacity table).capacity,
          (capacities.foldl setCapacity table).policy⟩ := rfl
    _ = (table.setCapacity smallest).setCapacity latest := by
        rw [hentries, capacity_foldl_setCapacity hlatest, policy_foldl_setCapacity]
        rfl

end Several

end ListTable

end HeaderCompression.Table
