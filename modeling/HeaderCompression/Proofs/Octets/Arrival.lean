import HeaderCompression.Proofs.Octets.Queue
import HeaderCompression.Proofs.Octets.Reading

/-!
# Reading as octets arrive

An element that is incomplete is read again when more octets have arrived. The mark is set where
the element begins, so its octets are still there. A prefixwise reader comes to the verdict that it
would have come to with all octets at once, and leaves the same octets unread.
-/

namespace HeaderCompression.Octets

variable {α : Type}

namespace Queue

/-! ## Queues in order -/

/-- The mark is not behind the position, and the position is not behind the end. -/
structure IsOrdered (queue : Queue) : Prop where
  mark_le : queue.mark ≤ queue.position
  position_le : queue.position ≤ queue.storage.size

variable {queue : Queue} {rest : Octets}

theorem isOrdered_ofOctets (octets : Octets) : IsOrdered (ofOctets octets) :=
  ⟨Nat.le_refl 0, Nat.zero_le _⟩

theorem IsOrdered.setMark (hordered : queue.IsOrdered) : queue.setMark.IsOrdered :=
  ⟨Nat.le_refl _, hordered.position_le⟩

theorem IsOrdered.append (hordered : queue.IsOrdered) (octets : Octets) :
    (queue.append octets).IsOrdered where
  mark_le := Nat.zero_le _
  position_le := by
    have hposition := hordered.position_le
    simp only [Queue.append, Array.size_append, Array.size_extract]
    omega

/-- What is left is behind what was unread, so the position moves on. -/
theorem IsOrdered.leave (hordered : queue.IsOrdered) (hrest : rest <:+ queue.unread) :
    (queue.setMark.leave rest).IsOrdered where
  mark_le := by
    have hlength := hrest.length_le
    have hposition := hordered.position_le
    rw [length_unread, available] at hlength
    simp only [Queue.leave, Queue.setMark]
    omega
  position_le := Nat.sub_le _ _

theorem toList_storage_append (queue : Queue) (octets : Octets) :
    (queue.append octets).storage.toList = queue.storage.toList.drop queue.mark ++ octets := by
  rw [append, Array.toList_append, Array.toList_extract, List.extract_eq_take_drop,
    List.take_of_length_le (by simp)]

/-- The octets read since the mark are not dropped. -/
theorem IsOrdered.sub_mark_le (hordered : queue.IsOrdered) :
    queue.position - queue.mark ≤ (queue.storage.toList.drop queue.mark).length := by
  have hposition := hordered.position_le
  rw [List.length_drop, Array.length_toList]
  omega

theorem IsOrdered.unread_append (hordered : queue.IsOrdered) (octets : Octets) :
    (queue.append octets).unread = queue.unread ++ octets := by
  have hmark := hordered.mark_le
  calc
    (queue.append octets).unread =
        (queue.storage.toList.drop queue.mark ++ octets).drop (queue.position - queue.mark) := by
      rw [unread_eq_drop, toList_storage_append]
      rfl
    _ = (queue.storage.toList.drop queue.mark).drop (queue.position - queue.mark) ++ octets :=
      List.drop_append_of_le_length hordered.sub_mark_le
    _ = queue.unread ++ octets := by
      rw [List.drop_drop, Nat.add_sub_cancel' hmark, unread_eq_drop]

theorem IsOrdered.foldl_append (hordered : queue.IsOrdered) (chunks : List Octets) :
    (chunks.foldl Queue.append queue).IsOrdered ∧
      (chunks.foldl Queue.append queue).unread = queue.unread ++ chunks.flatten := by
  induction chunks generalizing queue with
  | nil => exact ⟨hordered, (List.append_nil _).symm⟩
  | cons chunk chunks hchunks =>
    obtain ⟨hlast, hunread⟩ := hchunks (hordered.append chunk)
    refine ⟨hlast, ?_⟩
    rw [List.foldl_cons, hunread, hordered.unread_append, List.flatten_cons, List.append_assoc]

end Queue

/-! ## Outcomes -/

/-- The verdict on unread octets, if there is one, and what is left of them. -/
def Reading.outcome (reading : Reading α) (unread : Octets) :
    Except DecodingError (Option α) × Octets :=
  match reading with
  | complete value rest => (.ok (some value), rest)
  | incomplete => (.ok none, unread)
  | failed error rest => (.error error, rest)

theorem Reading.outcome_of_no_verdict {reading : Reading α} {unread : Octets}
    (hverdict : (reading.outcome unread).1 = .ok none) : (reading.outcome unread).2 = unread := by
  cases reading with
  | complete value rest => cases hverdict
  | incomplete => rfl
  | failed error rest => cases hverdict

variable {reader : Octets → Reading α}

/-- A verdict is not changed by octets that follow. -/
theorem Prefixwise.outcome_append (hreader : Prefixwise reader) {octets : Octets}
    (hverdict : ((reader octets).outcome octets).1 ≠ .ok none) (more : Octets) :
    (reader (octets ++ more)).outcome (octets ++ more) =
      (((reader octets).outcome octets).1, ((reader octets).outcome octets).2 ++ more) := by
  cases hread : reader octets with
  | complete value rest =>
    rw [hreader.append (.ok value) hread more]
    rfl
  | incomplete =>
    rw [hread] at hverdict
    exact absurd rfl hverdict
  | failed error rest =>
    rw [hreader.append (.error error) hread more]
    rfl

namespace Queue

variable {queue : Queue}

/-- What a reader makes of a queue depends on nothing but the unread octets. -/
theorem read_eq_outcome (hreader : Prefixwise reader) (queue : Queue) :
    (queue.read reader).1 = ((reader queue.unread).outcome queue.unread).1 ∧
      (queue.read reader).2.unread = ((reader queue.unread).outcome queue.unread).2 := by
  unfold read
  cases hread : reader queue.unread with
  | complete value rest =>
    have hsuffix := hreader.suffix (.ok value) hread
    rw [← unread_setMark] at hsuffix
    exact ⟨rfl, unread_leave hsuffix⟩
  | incomplete => exact ⟨rfl, rfl⟩
  | failed error rest =>
    have hsuffix := hreader.suffix (.error error) hread
    rw [← unread_setMark] at hsuffix
    exact ⟨rfl, unread_leave hsuffix⟩

theorem IsOrdered.read (hreader : Prefixwise reader) (hordered : queue.IsOrdered) :
    (queue.read reader).2.IsOrdered := by
  unfold Queue.read
  cases hread : reader queue.unread with
  | complete value rest => exact hordered.leave (hreader.suffix (.ok value) hread)
  | incomplete => exact hordered.setMark
  | failed error rest => exact hordered.leave (hreader.suffix (.error error) hread)

/-! ## Arrivals -/

/-- Read an element, and again after each chunk that arrives as long as there is no verdict. -/
def readArriving (reader : Octets → Reading α) (queue : Queue) :
    List Octets → Except DecodingError (Option α) × Queue
  | [] => queue.read reader
  | chunk :: chunks =>
    match queue.read reader with
    | (.ok none, after) => (after.append chunk).readArriving reader chunks
    | (verdict, after) => (verdict, (chunk :: chunks).foldl append after)

theorem readArriving_of_no_verdict {after : Queue} (hread : queue.read reader = (.ok none, after))
    (chunk : Octets) (chunks : List Octets) :
    queue.readArriving reader (chunk :: chunks) =
      (after.append chunk).readArriving reader chunks := by
  rw [readArriving, hread]

theorem readArriving_of_verdict (hverdict : (queue.read reader).1 ≠ .ok none)
    (chunks : List Octets) :
    queue.readArriving reader chunks =
      ((queue.read reader).1, chunks.foldl append (queue.read reader).2) := by
  cases chunks with
  | nil => rfl
  | cons chunk chunks =>
    rw [readArriving]
    rcases hread : queue.read reader with ⟨verdict, after⟩
    rw [hread] at hverdict
    match verdict with
    | .error error => rfl
    | .ok (some value) => rfl
    | .ok none => exact absurd rfl hverdict

/-- Reading again and again comes to the outcome of the whole. -/
theorem readArriving_eq_outcome (hreader : Prefixwise reader) (hordered : queue.IsOrdered)
    (chunks : List Octets) :
    let whole := queue.unread ++ chunks.flatten
    (queue.readArriving reader chunks).1 = ((reader whole).outcome whole).1 ∧
      (queue.readArriving reader chunks).2.unread = ((reader whole).outcome whole).2 := by
  dsimp only
  induction chunks generalizing queue with
  | nil =>
    rw [List.flatten_nil, List.append_nil]
    exact read_eq_outcome hreader queue
  | cons chunk chunks hchunks =>
    have hafter := hordered.read hreader
    obtain ⟨hfirst, hleft⟩ := read_eq_outcome hreader queue
    by_cases hverdict : (queue.read reader).1 = .ok none
    · have hunread : (queue.read reader).2.unread = queue.unread :=
        hleft.trans (Reading.outcome_of_no_verdict (hfirst.symm.trans hverdict))
      have hwhole : (queue.read reader).2.unread ++ chunk ++ chunks.flatten =
          queue.unread ++ (chunk :: chunks).flatten := by
        rw [hunread, List.flatten_cons, List.append_assoc]
      have hothers := hchunks (hafter.append chunk)
      rw [hafter.unread_append, hwhole] at hothers
      rwa [readArriving_of_no_verdict (Prod.ext hverdict rfl)]
    · have houtcome : ((reader queue.unread).outcome queue.unread).1 ≠ .ok none := fun hnone ↦
        hverdict (hfirst.trans hnone)
      rw [readArriving_of_verdict hverdict, (hafter.foldl_append (chunk :: chunks)).2,
        hreader.outcome_append houtcome, ← hfirst, ← hleft]
      exact ⟨rfl, rfl⟩

end Queue

end HeaderCompression.Octets
