import HeaderCompression.Proofs.Octets.Arrival

/-!
# Queues as windows

A queue stands for a window on the octets that pass through it: those read since the mark, and
those not read yet. A read moves octets from the second part to the first and a rewind moves them
back. Storage is dropped when more octets arrive, but nothing that the window shows.
-/

namespace HeaderCompression.Octets

/-! ## Operations -/

namespace Queue

/-- What can be done to a queue. -/
inductive Operation where
  | append (octets : Octets)
  | readOctet
  | readOctets (count : Nat)
  | skip (count : Nat)
  | setMark
  | rewind
  | clear
  deriving DecidableEq, Repr

/-- What an operation hands out. -/
inductive Answer where
  | nothing
  | octet (octet? : Option UInt8)
  | octets (octets? : Option Octets)
  | skipped (count : Nat)
  deriving DecidableEq, Repr

def perform (queue : Queue) : Operation → Answer × Queue
  | .append octets => (.nothing, queue.append octets)
  | .readOctet => queue.readOctet?.map .octet id
  | .readOctets count => (queue.readOctets? count).map .octets id
  | .skip count => (queue.skip count).map .skipped id
  | .setMark => (.nothing, queue.setMark)
  | .rewind => (.nothing, queue.rewind)
  | .clear => (.nothing, queue.clear)

end Queue

structure Window where
  /-- The octets that a rewind gives back. -/
  sinceMark : Octets
  unread : Octets
  deriving DecidableEq, Repr

namespace Window

/-- Read the first `count` unread octets, or all if there are fewer. -/
def advance (window : Window) (count : Nat) : Window :=
  ⟨window.sinceMark ++ window.unread.take count, window.unread.drop count⟩

def perform (window : Window) : Queue.Operation → Queue.Answer × Window
  | .append octets => (.nothing, { window with unread := window.unread ++ octets })
  | .readOctet => (.octet window.unread.head?, window.advance 1)
  | .readOctets count =>
    if window.unread.length < count then (.octets none, window)
    else (.octets (some (window.unread.take count)), window.advance count)
  | .skip count => (.skipped (min count window.unread.length), window.advance count)
  | .setMark => (.nothing, { window with sinceMark := [] })
  | .rewind => (.nothing, ⟨[], window.sinceMark ++ window.unread⟩)
  | .clear => (.nothing, ⟨[], []⟩)

theorem advance_zero (window : Window) : window.advance 0 = window := by
  simp [advance]

theorem advance_min_length (window : Window) (count : Nat) :
    window.advance (min count window.unread.length) = window.advance count := by
  rcases Nat.le_total count window.unread.length with hle | hle
  · rw [Nat.min_eq_left hle]
  · rw [Nat.min_eq_right hle, advance, advance, List.take_of_length_le hle,
      List.drop_eq_nil_of_le hle, List.take_length, List.drop_length]

end Window

/-! ## What a queue shows -/

namespace Queue

variable {queue : Queue}

def window (queue : Queue) : Window :=
  ⟨queue.sinceMark, queue.unread⟩

theorem sinceMark_eq_take_drop (queue : Queue) :
    queue.sinceMark =
      (queue.storage.toList.drop queue.mark).take (queue.position - queue.mark) := by
  rw [sinceMark, Array.toList_extract, List.extract_eq_take_drop]

theorem sinceMark_eq_nil (hmark : queue.position ≤ queue.mark) : queue.sinceMark = [] := by
  rw [sinceMark_eq_take_drop, Nat.sub_eq_zero_of_le hmark, List.take_zero]

/-- The storage from the mark on is all that the queue shows. -/
theorem IsOrdered.sinceMark_append_unread (hordered : queue.IsOrdered) :
    queue.sinceMark ++ queue.unread = queue.storage.toList.drop queue.mark := by
  have hposition : queue.mark + (queue.position - queue.mark) = queue.position :=
    Nat.add_sub_cancel' hordered.mark_le
  rw [sinceMark_eq_take_drop, unread_eq_drop, ← hposition, Nat.add_sub_cancel_left,
    ← List.drop_drop, List.take_append_drop]

theorem window_ofOctets (octets : Octets) : (ofOctets octets).window = ⟨[], octets⟩ := by
  rw [window, unread_ofOctets, sinceMark_eq_nil (Nat.le_refl 0)]

theorem window_setMark (queue : Queue) :
    queue.setMark.window = { queue.window with sinceMark := [] } := by
  rw [window, unread_setMark, sinceMark_eq_nil (Nat.le_refl _)]
  rfl

theorem IsOrdered.window_rewind (hordered : queue.IsOrdered) :
    queue.rewind.window = ⟨[], queue.sinceMark ++ queue.unread⟩ := by
  rw [window, sinceMark_eq_nil (Nat.le_refl _), unread_eq_drop, hordered.sinceMark_append_unread]
  rfl

/-- What is dropped when more octets arrive lies before the mark. -/
theorem IsOrdered.window_append (hordered : queue.IsOrdered) (octets : Octets) :
    (queue.append octets).window = { queue.window with unread := queue.unread ++ octets } := by
  have hsinceMark : (queue.append octets).sinceMark = queue.sinceMark := by
    rw [sinceMark_eq_take_drop, toList_storage_append, sinceMark_eq_take_drop]
    exact List.take_append_of_le_length hordered.sub_mark_le
  rw [window, hsinceMark, hordered.unread_append]
  rfl

theorem IsOrdered.window_advance (hordered : queue.IsOrdered) (count : Nat) :
    window { queue with position := queue.position + count } = queue.window.advance count := by
  have hposition : queue.position + count - queue.mark = queue.position - queue.mark + count :=
    Nat.sub_add_comm hordered.mark_le
  have hmark : queue.mark + (queue.position - queue.mark) = queue.position :=
    Nat.add_sub_cancel' hordered.mark_le
  have hsinceMark : sinceMark { queue with position := queue.position + count } =
      queue.sinceMark ++ queue.unread.take count := by
    rw [sinceMark_eq_take_drop, sinceMark_eq_take_drop, unread_eq_drop]
    dsimp only
    rw [hposition, List.take_add, List.drop_drop, hmark]
  have hunread : unread { queue with position := queue.position + count } =
      queue.unread.drop count := by
    rw [unread_eq_drop, unread_eq_drop, List.drop_drop]
  rw [window, hsinceMark, hunread]
  rfl

/-! ## What is read -/

theorem IsOrdered.readOctet? (hordered : queue.IsOrdered) :
    queue.readOctet?.map id window = (queue.unread.head?, queue.window.advance 1) := by
  unfold Queue.readOctet?
  rw [← getElem?_position]
  cases hoctet : queue.storage[queue.position]? with
  | none =>
    have hunread : queue.unread = [] := by
      rw [← List.head?_eq_none_iff, ← getElem?_position, hoctet]
    have hnothing : queue.window.advance 1 = queue.window := by
      rw [← Window.advance_min_length, window, hunread]
      exact Window.advance_zero _
    rw [hnothing]
    rfl
  | some octet => exact congrArg (Prod.mk _) (hordered.window_advance 1)

theorem readOctets?_of_lt {count : Nat} (hcount : queue.unread.length < count) :
    queue.readOctets? count = (none, queue) := by
  rw [length_unread] at hcount
  rw [readOctets?, if_pos hcount]

theorem IsOrdered.readOctets?_of_le (hordered : queue.IsOrdered) {count : Nat}
    (hcount : count ≤ queue.unread.length) :
    (queue.readOctets? count).map id window =
      (some (queue.unread.take count), queue.window.advance count) := by
  rw [length_unread] at hcount
  rw [readOctets?, if_neg (Nat.not_lt.2 hcount), toList_extract_position]
  exact congrArg (Prod.mk _) (hordered.window_advance count)

theorem IsOrdered.skip (hordered : queue.IsOrdered) (count : Nat) :
    (queue.skip count).map id window =
      (min count queue.unread.length, queue.window.advance count) := by
  have hlength : queue.window.unread.length = queue.available := length_unread queue
  rw [← Window.advance_min_length, length_unread, hlength]
  exact congrArg (Prod.mk _) (hordered.window_advance _)

/-! ## One operation -/

theorem IsOrdered.advance (hordered : queue.IsOrdered) {count : Nat}
    (hcount : count ≤ queue.available) :
    IsOrdered { queue with position := queue.position + count } where
  mark_le := Nat.le_add_right_of_le hordered.mark_le
  position_le := by
    have hposition := hordered.position_le
    unfold available at hcount
    dsimp only
    omega

theorem IsOrdered.snd_readOctet? (hordered : queue.IsOrdered) : queue.readOctet?.2.IsOrdered := by
  unfold Queue.readOctet?
  split
  · exact hordered
  · rename_i octet hoctet
    have hposition := (Array.getElem?_eq_some_iff.1 hoctet).1
    exact hordered.advance (Nat.sub_pos_of_lt hposition)

theorem IsOrdered.snd_readOctets? (hordered : queue.IsOrdered) (count : Nat) :
    (queue.readOctets? count).2.IsOrdered := by
  unfold Queue.readOctets?
  split
  · exact hordered
  · rename_i hcount
    exact hordered.advance (Nat.le_of_not_lt hcount)

theorem IsOrdered.perform (hordered : queue.IsOrdered) (operation : Operation) :
    (queue.perform operation).2.IsOrdered := by
  cases operation with
  | append octets => exact hordered.append octets
  | readOctet => exact hordered.snd_readOctet?
  | readOctets count => exact hordered.snd_readOctets? count
  | skip count => exact hordered.advance (Nat.min_le_right count queue.available)
  | setMark => exact hordered.setMark
  | rewind => exact ⟨Nat.le_refl _, Nat.le_trans hordered.mark_le hordered.position_le⟩
  | clear => exact ⟨Nat.le_refl 0, Nat.le_refl 0⟩

/-- An operation hands out what the window does, and leaves what the window leaves. -/
theorem IsOrdered.perform_eq (hordered : queue.IsOrdered) (operation : Operation) :
    (queue.perform operation).map id window = queue.window.perform operation := by
  cases operation with
  | append octets => exact congrArg (Prod.mk _) (hordered.window_append octets)
  | readOctet => exact congrArg (Prod.map Answer.octet id) hordered.readOctet?
  | readOctets count =>
    rw [Queue.perform, Window.perform]
    split
    · rename_i hcount
      rw [readOctets?_of_lt hcount]
      rfl
    · rename_i hcount
      have hle := Nat.le_of_not_lt hcount
      exact congrArg (Prod.map Answer.octets id) (hordered.readOctets?_of_le hle)
  | skip count => exact congrArg (Prod.map Answer.skipped id) (hordered.skip count)
  | setMark => exact congrArg (Prod.mk _) (window_setMark queue)
  | rewind => exact congrArg (Prod.mk _) hordered.window_rewind
  | clear => rfl

/-! ## Any operations -/

/-- The queue after several operations. -/
def performAll (queue : Queue) (operations : List Operation) : Queue :=
  operations.foldl (fun current operation ↦ (current.perform operation).2) queue

end Queue

/-- The window after several operations. -/
def Window.performAll (window : Window) (operations : List Queue.Operation) : Window :=
  operations.foldl (fun current operation ↦ (current.perform operation).2) window

namespace Queue

variable {queue : Queue}

theorem IsOrdered.performAll (hordered : queue.IsOrdered) (operations : List Operation) :
    (queue.performAll operations).IsOrdered ∧
      (queue.performAll operations).window = queue.window.performAll operations := by
  induction operations generalizing queue with
  | nil => exact ⟨hordered, rfl⟩
  | cons operation operations hoperations =>
    have hnext : (queue.perform operation).2.window = (queue.window.perform operation).2 :=
      congrArg Prod.snd (hordered.perform_eq operation)
    obtain ⟨hlast, hwindow⟩ := hoperations (hordered.perform operation)
    rw [hnext] at hwindow
    exact ⟨hlast, hwindow⟩

/-- Whatever octets a queue begins with and whatever is done to it, it shows the octets read since
the mark and the unread ones as a window does, hands out what the window hands out, and stays in
order. -/
theorem queue_is_window (octets : Octets) (operations : List Operation) :
    let queue := (ofOctets octets).performAll operations
    let window : Window := Window.performAll ⟨[], octets⟩ operations
    queue.sinceMark = window.sinceMark ∧ queue.unread = window.unread ∧
      queue.available = window.unread.length ∧
      queue.mark ≤ queue.position ∧ queue.position ≤ queue.storage.size ∧
      ∀ operation, (queue.perform operation).1 = (window.perform operation).1 := by
  intro queue window
  obtain ⟨hordered, hwindow⟩ := (isOrdered_ofOctets octets).performAll operations
  rw [window_ofOctets] at hwindow
  have hsame : queue.window = window := hwindow
  have hunread : queue.unread = window.unread := congrArg Window.unread hsame
  refine ⟨congrArg Window.sinceMark hsame, hunread, ?_, hordered.mark_le, hordered.position_le,
    fun operation ↦ ?_⟩
  · rw [← length_unread, hunread]
  · rw [← hsame]
    exact congrArg Prod.fst (hordered.perform_eq operation)

/-- Two octets are given back after others have arrived. -/
example :
    let operations := [.readOctet, .setMark, .skip 2, .append [5, 6], .rewind]
    ((ofOctets [1, 2, 3, 4]).performAll operations).unread = [2, 3, 4, 5, 6] := by
  decide

end Queue

end HeaderCompression.Octets
