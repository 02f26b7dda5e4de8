import HeaderCompression.Proofs.Encoder.RoundTrip
import HeaderCompression.Proofs.Table.Eviction

/-!
# Announcing the sizes that were put off

Of all sizes that a writer is asked for, the smallest and the latest are put off until the next
block and announced there. A reader that takes them over needs no more than what fits in the
smallest size to end up with the writer's table, and it reads the rest of the block as it was
written.
-/

namespace HeaderCompression.Block.Writer

open Octets Table Wire

variable {writer : Writer} {encoder : Encoder} {pending : PendingResize}
  {limit smallest latest : Nat}

/-! ## Sizes that are put off -/

theorem foldl_requestCapacity_of_pending (hpending : writer.pending? = some pending)
    (capacities : List Nat) :
    capacities.foldl requestCapacity writer =
      { writer with
        pending? :=
          some ⟨capacities.foldl min pending.smallest, capacities.getLastD pending.latest⟩ } := by
  induction capacities generalizing writer pending with
  | nil =>
    rw [List.foldl_nil, List.foldl_nil, List.getLastD_nil, ← hpending]
  | cons capacity capacities hcapacities =>
    have hnext : (writer.requestCapacity capacity).pending? =
        some ⟨min pending.smallest capacity, capacity⟩ := by
      rw [requestCapacity, hpending]
    rw [List.foldl_cons, hcapacities hnext, List.foldl_cons, List.getLastD_cons]
    rfl

/-- However many sizes are asked for, the smallest and the latest of them are put off. -/
theorem foldl_requestCapacity (hpending : writer.pending? = none) {capacities : List Nat}
    (hsmallest : capacities.min? = some smallest) (hlatest : capacities.getLast? = some latest) :
    capacities.foldl requestCapacity writer =
      { writer with pending? := some ⟨smallest, latest⟩ } := by
  cases capacities with
  | nil => cases hsmallest
  | cons capacity capacities =>
    have hfirst : (writer.requestCapacity capacity).pending? = some ⟨capacity, capacity⟩ := by
      rw [requestCapacity, hpending]
    rw [List.min?_cons', Option.some.injEq] at hsmallest
    rw [List.getLast?_cons, Option.some.injEq] at hlatest
    rw [List.foldl_cons, foldl_requestCapacity_of_pending hfirst, hsmallest,
      List.getLastD_eq_getLast?, hlatest]
    rfl

/-! ## Announcements -/

theorem reachable_announce (hreachable : encoder.Reachable) (pending? : Option PendingResize) :
    (announce encoder pending?).2.Reachable := by
  unfold announce
  cases pending? with
  | none => exact hreachable
  | some pending =>
    dsimp only
    split
    · exact (hreachable.resize pending.smallest).resize pending.latest
    · exact hreachable.resize pending.latest

theorem reachable_encode (hreachable : writer.encoder.Reachable) (headers : List Header) :
    (writer.encode headers).2.encoder.Reachable :=
  (reachable_announce hreachable writer.pending?).encode headers

theorem capacity_announce (htable : encoder.table.WellFormed) (pending : PendingResize) :
    (announce encoder (some pending)).2.table.capacity = pending.latest := by
  have hshrunk : (encoder.resize pending.smallest).2.table.WellFormed :=
    htable.setCapacity pending.smallest
  unfold announce
  dsimp only
  split
  · exact Encoder.capacity_resize hshrunk pending.latest
  · exact Encoder.capacity_resize htable pending.latest

theorem capacity_encode_of_pending (hreachable : writer.encoder.Reachable)
    (hpending : writer.pending? = some pending) (headers : List Header) :
    (writer.encode headers).2.encoder.table.capacity = pending.latest := by
  unfold encode
  rw [hpending]
  calc
    ((announce writer.encoder (some pending)).2.encode headers).2.table.capacity
      = (announce writer.encoder (some pending)).2.table.capacity :=
        Encoder.capacity_encode (reachable_announce hreachable _).wellFormed headers
    _ = pending.latest := capacity_announce hreachable.wellFormed pending

/-- If the tables of both sides agree within the smallest size, they are the same once the sizes
that were put off have been announced. -/
theorem decode_announce_append_of_agree (htable : encoder.table.WellFormed) {decoder : ListDecoder}
    (hlimit : pending.latest ≤ decoder.tableSizeLimit)
    (hrange : pending.latest ≤ Bits.values 31 + 30)
    (hagree : decoder.table.setCapacity pending.smallest =
      encoder.table.listing.setCapacity pending.smallest) (rest : Octets) :
    decoder.decode ((announce encoder (some pending)).1 ++ rest) =
      ((announce encoder (some pending)).2.listDecoder decoder.tableSizeLimit).decode rest := by
  unfold announce
  dsimp only
  split
  · rename_i hrises
    have hle : pending.smallest ≤ pending.latest := Nat.le_of_lt hrises
    have hshrunk : (encoder.resize pending.smallest).2.table.WellFormed :=
      htable.setCapacity pending.smallest
    have hagain : pending.latest ≤
        ((encoder.resize pending.smallest).2.listDecoder decoder.tableSizeLimit).tableSizeLimit :=
      hlimit
    dsimp only
    rw [List.append_assoc, Encoder.decode_resize_append_of_agree htable
      (Nat.le_trans hle hlimit) (Nat.le_trans hle hrange) hagree]
    exact Encoder.decode_resize_append_of_agree hshrunk hagain hrange rfl rest
  · rename_i hstays
    have hle : pending.latest ≤ pending.smallest := Nat.le_of_not_lt hstays
    -- Only the latest size is announced. It is no larger, so the tables agree within it as well.
    have hlatest : decoder.table.setCapacity pending.latest =
        encoder.table.listing.setCapacity pending.latest := by
      rw [← decoder.table.setCapacity_setCapacity hle, hagree,
        encoder.table.listing.setCapacity_setCapacity hle]
    exact Encoder.decode_resize_append_of_agree htable hlimit hrange hlatest rest

/-- A reader whose table agrees with the writer's within the smallest size reads the block. -/
theorem decode_encode_of_agree (hreachable : writer.encoder.Reachable)
    (hpending : writer.pending? = some pending) {decoder : ListDecoder}
    (hlimit : pending.latest ≤ decoder.tableSizeLimit)
    (hrange : pending.latest ≤ Bits.values 31 + 30)
    (hagree : decoder.table.setCapacity pending.smallest =
      writer.encoder.table.listing.setCapacity pending.smallest) {headers : List Header}
    (hencodable : ∀ header ∈ headers, header.IsEncodable) :
    decoder.decode (writer.encode headers).1 =
      .whole ((writer.encode headers).2.encoder.listDecoder decoder.tableSizeLimit) headers := by
  have hannounced : (announce writer.encoder (some pending)).2.Valid (Bits.values 31 + 30) := by
    refine ⟨(reachable_announce hreachable _).wellFormed, ?_, Nat.le_refl _⟩
    rw [capacity_announce hreachable.wellFormed]
    exact hrange
  have hencoded := Encoder.decode_encode hannounced hencodable decoder.tableSizeLimit
  unfold encode
  rw [hpending]
  exact (decode_announce_append_of_agree hreachable.wellFormed hlimit hrange hagree _).trans
    hencoded

/-! ## Writers within a limit -/

/-- The table sizes that were asked for are within the limit. -/
structure Valid (writer : Writer) (limit : Nat) : Prop where
  encoder : writer.encoder.Valid limit
  pending : ∀ pending, writer.pending? = some pending →
    pending.smallest ≤ limit ∧ pending.latest ≤ limit

theorem valid_announce {encoder : Encoder} (hencoder : encoder.Valid limit)
    {pending? : Option PendingResize}
    (hpending : ∀ pending, pending? = some pending →
      pending.smallest ≤ limit ∧ pending.latest ≤ limit) :
    (announce encoder pending?).2.Valid limit := by
  unfold announce
  cases pending? with
  | none => exact hencoder
  | some pending =>
    obtain ⟨hsmallest, hlatest⟩ := hpending pending rfl
    dsimp only
    split
    · exact (hencoder.resize hsmallest).resize hlatest
    · exact hencoder.resize hlatest

theorem decode_announce_append {encoder : Encoder} (hencoder : encoder.Valid limit)
    {pending? : Option PendingResize}
    (hpending : ∀ pending, pending? = some pending →
      pending.smallest ≤ limit ∧ pending.latest ≤ limit) (rest : Octets) :
    (encoder.listDecoder limit).decode ((announce encoder pending?).1 ++ rest) =
      ((announce encoder pending?).2.listDecoder limit).decode rest := by
  cases pending? with
  | none => rfl
  | some pending =>
    have hlatest : pending.latest ≤ (encoder.listDecoder limit).tableSizeLimit :=
      (hpending pending rfl).2
    exact decode_announce_append_of_agree hencoder.table hlatest
      (Nat.le_trans hlatest hencoder.limit_le) rfl rest

theorem Valid.encode (hvalid : writer.Valid limit) (headers : List Header) :
    (writer.encode headers).2.Valid limit where
  encoder := (valid_announce hvalid.encoder hvalid.pending).encode headers
  pending _ hpending := by cases hpending

theorem Valid.requestCapacity (hvalid : writer.Valid limit) {capacity : Nat}
    (hcapacity : capacity ≤ limit) : (writer.requestCapacity capacity).Valid limit where
  encoder := hvalid.encoder
  pending := by
    intro pending hpending
    obtain rfl := Option.some.inj hpending
    split
    · rename_i earlier hearlier
      exact ⟨Nat.le_trans (Nat.min_le_right _ _) hcapacity, hcapacity⟩
    · exact ⟨hcapacity, hcapacity⟩

theorem Valid.setPolicy (hvalid : writer.Valid limit) (policy : EvictionPolicy) :
    (writer.setPolicy policy).Valid limit where
  encoder :=
    ⟨hvalid.encoder.table.setPolicy policy, hvalid.encoder.capacity_le, hvalid.encoder.limit_le⟩
  pending := hvalid.pending

/-- A block is read back as the headers that were written. -/
theorem decode_encode (hvalid : writer.Valid limit) {headers : List Header}
    (hencodable : ∀ header ∈ headers, header.IsEncodable) :
    (writer.encoder.listDecoder limit).decode (writer.encode headers).1 =
      .whole ((writer.encode headers).2.encoder.listDecoder limit) headers := by
  have hannounced := decode_announce_append hvalid.encoder hvalid.pending
    ((announce writer.encoder writer.pending?).2.encode headers).1
  have hencoded := Encoder.decode_encode (valid_announce hvalid.encoder hvalid.pending) hencodable
    limit
  exact hannounced.trans hencoded

end HeaderCompression.Block.Writer
