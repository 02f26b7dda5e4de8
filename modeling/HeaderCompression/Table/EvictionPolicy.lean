/-!
# Eviction policies

Entries leave a table from the old end, in rounds, until a new entry fits. A policy says how many
leave in one round. Taking one at a time keeps as many entries as possible. Taking a batch is meant
to save rounds and may take more entries than necessary, so both ends of a connection have to agree
on the policy.
-/

namespace HeaderCompression.Table

inductive EvictionPolicy where
  /-- One entry a round. -/
  | fifo
  /-- As many entries a round as would make room if each had the given average size, and one. -/
  | batched (averageEntrySize : Nat)
  deriving DecidableEq, Repr, Inhabited

namespace EvictionPolicy

def name : EvictionPolicy → String
  | fifo => "FIFO"
  | batched _ => "batched"

/-- Whether a table of this size and capacity has to make room for an entry of size `incoming`. -/
def overflows (size incoming capacity : Nat) : Bool :=
  capacity < size + incoming

/-- How many entries leave in the next round. -/
def roundLength (policy : EvictionPolicy) (size incoming capacity : Nat) : Nat :=
  if overflows size incoming capacity then
    match policy with
    | fifo => 1
    | batched averageEntrySize =>
      (size + incoming - capacity) / max averageEntrySize 1 + 1
  else 0

theorem overflows_iff {size incoming capacity : Nat} :
    overflows size incoming capacity ↔ capacity < size + incoming := by
  simp [overflows]

/-- A round that is called for takes at least one entry. -/
theorem roundLength_pos {policy : EvictionPolicy} {size incoming capacity : Nat}
    (hevict : overflows size incoming capacity) :
    0 < policy.roundLength size incoming capacity := by
  cases policy with
  | fifo => simp [roundLength, hevict]
  | batched averageEntrySize => simp [roundLength, hevict]

end EvictionPolicy

end HeaderCompression.Table
