import HeaderCompression.Proofs.Decoder.ListDecoder
import HeaderCompression.Proofs.Table.Eviction

/-!
# Decoders that remember more

With one entry a round, a table of larger capacity keeps all that a smaller one keeps, and older
entries behind it. Indexes count from the newest entry, so every index that the smaller table
resolves refers to the same field in the larger one, and every block that is whole for a decoder
with the smaller table is read alike by a decoder with the larger one.
-/

namespace HeaderCompression

open Octets Table Wire

/-! ## Tables -/

namespace Table.ListTable

/-- The entries of the small table are the newest ones of the large table. -/
structure Covers (large small : ListTable) : Prop where
  entries : small.entries <+: large.entries
  capacity_le : small.capacity ≤ large.capacity
  large_fifo : large.policy = .fifo
  small_fifo : small.policy = .fifo

theorem policy_add (table : ListTable) (field : Field) :
    (table.add field).policy = table.policy := by
  unfold add
  split <;> rfl

namespace Covers

variable {large small : ListTable}

theorem add (hcovers : large.Covers small) (field : Field) :
    (large.add field).Covers (small.add field) where
  entries := by
    have hcapacity := hcovers.capacity_le
    unfold ListTable.add
    by_cases hsmall : small.capacity < field.size
    · rw [if_pos hsmall]
      exact List.nil_prefix
    · rw [if_neg hsmall, if_neg (by omega), hcovers.large_fifo, hcovers.small_fifo]
      exact (List.prefix_cons_inj field).2 (makeRoom_fifo_mono hcovers.entries hcapacity)
  capacity_le := by
    rw [capacity_add, capacity_add]
    exact hcovers.capacity_le
  large_fifo := (policy_add large field).trans hcovers.large_fifo
  small_fifo := (policy_add small field).trans hcovers.small_fifo

/-- The same capacity leaves the two tables no less alike. -/
theorem setCapacity (hcovers : large.Covers small) (capacity : Nat) :
    (large.setCapacity capacity).Covers (small.setCapacity capacity) where
  entries := makeRoom_fifo_mono hcovers.entries (Nat.le_refl capacity)
  capacity_le := Nat.le_refl capacity
  large_fifo := hcovers.large_fifo
  small_fifo := hcovers.small_fifo

theorem resolve (hcovers : large.Covers small) {index : Nat} {field : Field}
    (hresolve : small.resolve index = .ok field) : large.resolve index = .ok field := by
  have hindexed : small.indexed <+: large.indexed :=
    (List.prefix_append_right_inj _).2 hcovers.entries
  unfold ListTable.resolve lookup? at hresolve ⊢
  by_cases hzero : index = 0
  · rw [if_pos hzero] at hresolve
    cases hresolve
  · rw [if_neg hzero] at hresolve ⊢
    cases hsmall : small.indexed[index - 1]? with
    | none =>
      rw [hsmall] at hresolve
      cases hresolve
    | some found =>
      obtain ⟨hplace, hfound⟩ := List.getElem?_eq_some_iff.1 hsmall
      rw [hsmall] at hresolve
      rw [List.prefix_iff_getElem?.1 hindexed (index - 1) hplace, hfound]
      exact hresolve

end Covers

end Table.ListTable

/-! ## Decoders -/

namespace ListDecoder

/-- The large decoder has all that the small one has, and accepts all that it accepts. -/
structure Covers (large small : ListDecoder) : Prop where
  table : large.table.Covers small.table
  tableSizeLimit_le : small.tableSizeLimit ≤ large.tableSizeLimit

namespace Covers

variable {large small next : ListDecoder}

theorem insert (hcovers : large.Covers small) (indexing : Indexing) (field : Field) :
    (large.insert indexing field).Covers (small.insert indexing field) := by
  cases indexing with
  | incremental => exact ⟨hcovers.table.add field, hcovers.tableSizeLimit_le⟩
  | without => exact hcovers
  | never => exact hcovers

theorem nameOf (hcovers : large.Covers small) {literalName : LiteralName} {name : Octets}
    (hname : small.nameOf literalName = .ok name) : large.nameOf literalName = .ok name := by
  cases literalName with
  | literal text => exact hname
  | indexed index =>
    obtain ⟨field, hresolve, rfl⟩ := exceptMap_eq_ok_iff.1 hname
    exact exceptMap_eq_ok_iff.2 ⟨field, hcovers.table.resolve hresolve, rfl⟩

/-- A representation that the small decoder takes means the same to the large one. -/
theorem apply (hcovers : large.Covers small) {representation : HeaderRepresentation}
    {header? : Option Header} (happly : small.apply representation = .ok (next, header?)) :
    ∃ wider, large.apply representation = .ok (wider, header?) ∧ wider.Covers next := by
  cases representation with
  | indexed index =>
    obtain ⟨field, hresolve, hcompleted⟩ := exceptMap_eq_ok_iff.1 happly
    obtain ⟨rfl, rfl⟩ := Prod.mk.inj hcompleted
    exact ⟨large, exceptMap_eq_ok_iff.2 ⟨field, hcovers.table.resolve hresolve, rfl⟩, hcovers⟩
  | literal indexing literalName value =>
    obtain ⟨name, hname, hcompleted⟩ := exceptMap_eq_ok_iff.1 happly
    obtain ⟨rfl, rfl⟩ := Prod.mk.inj hcompleted
    exact ⟨large.insert indexing ⟨name, value⟩,
      exceptMap_eq_ok_iff.2 ⟨name, hcovers.nameOf hname, rfl⟩, hcovers.insert indexing _⟩
  | sizeUpdate capacity =>
    obtain ⟨resized, hresize, hcompleted⟩ := exceptMap_eq_ok_iff.1 happly
    obtain ⟨rfl, rfl⟩ := Prod.mk.inj hcompleted
    have hlimit := hcovers.tableSizeLimit_le
    unfold resize at hresize
    by_cases hcapacity : small.tableSizeLimit < capacity
    · rw [if_pos hcapacity] at hresize
      cases hresize
    · rw [if_neg hcapacity] at hresize
      obtain rfl := Except.ok.inj hresize
      refine ⟨{ large with table := large.table.setCapacity capacity }, ?_,
        hcovers.table.setCapacity capacity, hlimit⟩
      rw [ListDecoder.apply, resize, if_neg (by omega)]
      rfl

end Covers

/-! ## Blocks -/

variable {decoder next : ListDecoder} {octets : Octets} {headers : List Header}

/-- A block that is not empty begins with a representation that the decoder takes. -/
theorem exists_read_of_decode_eq_whole (hne : octets ≠ [])
    (hdecode : decoder.decode octets = .whole next headers) :
    ∃ middle header? rest others, decoder.read octets = .complete (middle, header?) rest ∧
      middle.decode rest = .whole next others ∧ headers = header?.toList ++ others := by
  rw [decode_of_ne_nil hne] at hdecode
  cases hread : decoder.read octets with
  | incomplete =>
    rw [hread] at hdecode
    cases congrArg Outcome.isPartial hdecode
  | failed error rest =>
    rw [hread] at hdecode
    cases congrArg Outcome.isPartial hdecode
  | complete completed rest =>
    rw [hread] at hdecode
    obtain ⟨hnext, hheaders, hpartial, herror⟩ := Outcome.mk.inj hdecode
    have hrest : completed.1.decode rest = .whole next (completed.1.decode rest).headers := by
      rw [Outcome.whole, ← hnext, ← hpartial, ← herror]
    exact ⟨completed.1, completed.2, rest, _, rfl, hrest, hheaders.symm⟩

/-- What is whole for a decoder is read alike by every decoder that covers it. -/
theorem Covers.decode {large small : ListDecoder} (hcovers : large.Covers small)
    (hdecode : small.decode octets = .whole next headers) :
    ∃ wider, large.decode octets = .whole wider headers ∧ wider.Covers next := by
  induction hlength : octets.length using Nat.strongRecOn generalizing large small octets headers
    with
  | ind length hshorter =>
    subst hlength
    by_cases hne : octets = []
    · subst hne
      rw [decode_nil] at hdecode
      obtain ⟨rfl, rfl, -, -⟩ := Outcome.mk.inj hdecode
      exact ⟨large, decode_nil large, hcovers⟩
    · obtain ⟨middle, header?, rest, others, hread, hrest, rfl⟩ :=
        exists_read_of_decode_eq_whole hne hdecode
      obtain ⟨representation, hgrammar, happly⟩ := read_eq_complete_iff.1 hread
      obtain ⟨between, hbetween, hmiddle⟩ := hcovers.apply happly
      obtain ⟨wider, hwider, hnext⟩ :=
        hshorter rest.length (length_lt_of_read hread) hmiddle hrest rfl
      have hlarge : large.read octets = .complete (between, header?) rest :=
        read_eq_complete_iff.2 ⟨representation, hgrammar, hbetween⟩
      refine ⟨wider, ?_, hnext⟩
      rw [decode_of_ne_nil hne, hlarge, finish, hwider]
      rfl

end ListDecoder

end HeaderCompression
