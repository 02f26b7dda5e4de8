/-!
# Rings

A ring holds its entries in the order of their insertion, in slots that are used again after the
oldest entry has left. It grows by doubling when every slot is taken. Entries are numbered by age:
the newest has age zero.
-/

namespace HeaderCompression.Table

structure RingBuffer (α : Type) where
  slots : Array (Option α) := #[]
  /-- The slot that the next entry goes to. -/
  head : Nat := 0
  count : Nat := 0
  deriving Repr

namespace RingBuffer

variable {α : Type}

def empty : RingBuffer α := { }

/-- The number of slots after the first insertion. -/
def initialSlots : Nat := 8

/-- The slot of the entry of a given age, counted back from the head around the ring. -/
def slotOf (ring : RingBuffer α) (age : Nat) : Nat :=
  (ring.head + ring.slots.size - (age + 1)) % ring.slots.size

def get? (ring : RingBuffer α) (age : Nat) : Option α :=
  if age < ring.count then (ring.slots[ring.slotOf age]?).join else none

/-- The entries, newest first. -/
def toList (ring : RingBuffer α) : List α :=
  (List.range ring.count).filterMap ring.get?

/-- Double the slots and lay the entries out from the first slot on, oldest first. -/
def grow (ring : RingBuffer α) : RingBuffer α where
  slots := Array.ofFn fun slot : Fin (max initialSlots (2 * ring.slots.size)) ↦
    if slot < ring.count then ring.get? (ring.count - 1 - slot) else none
  head := ring.count
  count := ring.count

/-- Write an entry into the head slot. -/
def fill (ring : RingBuffer α) (entry : α) : RingBuffer α where
  slots := ring.slots.setIfInBounds ring.head (some entry)
  head := (ring.head + 1) % ring.slots.size
  count := ring.count + 1

/-- Insert an entry as the newest. -/
def push (ring : RingBuffer α) (entry : α) : RingBuffer α :=
  if ring.count = ring.slots.size then ring.grow.fill entry else ring.fill entry

/-- Take out the oldest entry. -/
def popOldest? (ring : RingBuffer α) : Option (α × RingBuffer α) :=
  (ring.get? (ring.count - 1)).map fun entry ↦
    (entry, { ring with
      slots := ring.slots.setIfInBounds (ring.slotOf (ring.count - 1)) none
      count := ring.count - 1 })

/-- Take out all entries and keep the slots. -/
def clear (ring : RingBuffer α) : RingBuffer α where
  slots := Array.replicate ring.slots.size none
  head := 0
  count := 0

end RingBuffer

end HeaderCompression.Table
