import HeaderCompression.Octets.Reading

/-!
# Octet queues

A queue holds the octets that have arrived and not been read. It remembers one mark: the octets
read since the mark can be given back by a rewind. Octets before the mark are dropped when more
arrive, so the storage stays as small as the unread octets and the octets behind them up to the
mark. The two views `sinceMark` and `unread` describe a queue completely.
-/

namespace HeaderCompression.Octets

structure Queue where
  storage : Array UInt8 := #[]
  position : Nat := 0
  mark : Nat := 0
  deriving DecidableEq, Repr, Inhabited

namespace Queue

def empty : Queue := { }

def ofOctets (octets : Octets) : Queue :=
  { storage := octets.toArray }

/-! ## Views -/

/-- The octets that have not been read. -/
def unread (queue : Queue) : Octets :=
  (queue.storage.extract queue.position queue.storage.size).toList

/-- The octets read since the mark was set. -/
def sinceMark (queue : Queue) : Octets :=
  (queue.storage.extract queue.mark queue.position).toList

/-- How many octets have not been read. -/
def available (queue : Queue) : Nat :=
  queue.storage.size - queue.position

theorem length_unread (queue : Queue) : queue.unread.length = queue.available := by
  simp [unread, available]

@[simp]
theorem unread_ofOctets (octets : Octets) : (ofOctets octets).unread = octets := by
  simp [ofOctets, unread]

/-! ## Operations -/

/-- Add octets at the end, dropping those before the mark. -/
def append (queue : Queue) (octets : Octets) : Queue where
  storage := queue.storage.extract queue.mark queue.storage.size ++ octets.toArray
  position := queue.position - queue.mark
  mark := 0

def readOctet? (queue : Queue) : Option UInt8 × Queue :=
  match queue.storage[queue.position]? with
  | none => (none, queue)
  | some octet => (some octet, { queue with position := queue.position + 1 })

/-- Read `count` octets, or none at all if fewer have arrived. -/
def readOctets? (queue : Queue) (count : Nat) : Option Octets × Queue :=
  if queue.available < count then (none, queue)
  else
    (some (queue.storage.extract queue.position (queue.position + count)).toList,
      { queue with position := queue.position + count })

/-- Pass over as many as `count` octets, and say how many there were. -/
def skip (queue : Queue) (count : Nat) : Nat × Queue :=
  let skipped := min count queue.available
  (skipped, { queue with position := queue.position + skipped })

def setMark (queue : Queue) : Queue :=
  { queue with mark := queue.position }

/-- Give back the octets read since the mark. -/
def rewind (queue : Queue) : Queue :=
  { queue with position := queue.mark }

def clear (_ : Queue) : Queue := empty

/-- Move on so that `rest`, a tail of the unread octets, is left. -/
def leave (queue : Queue) (rest : Octets) : Queue :=
  { queue with position := queue.storage.size - rest.length }

/-- Run a reader on the unread octets, with the mark set where it starts. -/
def read {α : Type} (queue : Queue) (reader : Octets → Reading α) :
    Except DecodingError (Option α) × Queue :=
  match reader queue.unread with
  | .complete value rest => (.ok (some value), queue.setMark.leave rest)
  | .incomplete => (.ok none, queue.setMark)
  | .failed error rest => (.error error, queue.setMark.leave rest)

end Queue

end HeaderCompression.Octets
