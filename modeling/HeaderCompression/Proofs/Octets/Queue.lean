import HeaderCompression.Octets.Queue

/-!
# Queues that are marked where they are read

The decoder marks its queue each time it returns. From then on the queue is nothing but its unread
octets: more octets go behind them, and a rewind gives nothing back.
-/

namespace HeaderCompression.Octets.Queue

/-- Nothing has been read since the mark was set. -/
def IsMarked (queue : Queue) : Prop :=
  queue.mark = queue.position

theorem unread_eq_drop (queue : Queue) :
    queue.unread = queue.storage.toList.drop queue.position := by
  rw [unread, Array.toList_extract, List.extract_eq_take_drop]
  exact List.take_of_length_le (by simp)

theorem getElem?_position (queue : Queue) :
    queue.storage[queue.position]? = queue.unread.head? := by
  rw [unread_eq_drop, List.head?_drop, Array.getElem?_toList]

theorem toList_extract_position (queue : Queue) (count : Nat) :
    (queue.storage.extract queue.position (queue.position + count)).toList =
      queue.unread.take count := by
  rw [unread_eq_drop, Array.toList_extract, List.extract_eq_take_drop, Nat.add_sub_cancel_left]

theorem isMarked_empty : IsMarked empty := rfl

theorem isMarked_setMark (queue : Queue) : IsMarked queue.setMark := rfl

@[simp]
theorem unread_setMark (queue : Queue) : queue.setMark.unread = queue.unread := rfl

theorem isMarked_append {queue : Queue} (hmarked : queue.IsMarked) (octets : Octets) :
    (queue.append octets).IsMarked := by
  have hposition : queue.position - queue.mark = 0 := by
    rw [hmarked, Nat.sub_self]
  exact hposition.symm

theorem unread_append {queue : Queue} (hmarked : queue.IsMarked) (octets : Octets) :
    (queue.append octets).unread = queue.unread ++ octets := by
  have hposition : queue.position - queue.mark = 0 := by
    rw [hmarked, Nat.sub_self]
  rw [unread_eq_drop, append, hposition, List.drop_zero, Array.toList_append, hmarked]
  rfl

theorem rewind_eq_self {queue : Queue} (hmarked : queue.IsMarked) : queue.rewind = queue := by
  cases queue with
  | mk storage position mark =>
    obtain rfl : mark = position := hmarked
    rfl

/-- What a reader leaves is what the queue holds from then on. -/
theorem unread_leave {queue : Queue} {rest : Octets} (hrest : rest <:+ queue.unread) :
    (queue.leave rest).unread = rest := by
  have hstorage : rest <:+ queue.storage.toList := by
    rw [unread_eq_drop] at hrest
    exact hrest.trans (List.drop_suffix queue.position queue.storage.toList)
  rw [unread_eq_drop, leave, ← Array.length_toList]
  exact (List.suffix_iff_eq_drop.1 hstorage).symm

end HeaderCompression.Octets.Queue
