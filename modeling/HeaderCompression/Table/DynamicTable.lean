import Std.Data.TreeMap
import HeaderCompression.Field
import HeaderCompression.Table.EvictionPolicy
import HeaderCompression.Table.RingBuffer

/-!
# The dynamic table

The dynamic table remembers the fields inserted most recently, as many as its capacity admits.
Index 1 is the newest entry. Every insertion has a number, and two search trees hold the number of
the newest entry of each name and of each field, so no lookup walks through the entries. Since only
the oldest entry ever leaves, a number in a search tree belongs to the leaving entry exactly if no
newer entry has the same name or is the same field.
-/

namespace HeaderCompression.Table

structure DynamicTable where
  ring : RingBuffer Field := .empty
  /-- The sizes of the entries taken together. -/
  size : Nat := 0
  capacity : Nat
  policy : EvictionPolicy := .fifo
  /-- How many insertions there have been. -/
  inserted : Nat := 0
  latestByName : Std.TreeMap Octets Nat := ∅
  latestByField : Std.TreeMap Field Nat := ∅

namespace DynamicTable

/-- An empty table. -/
def ofCapacity (capacity : Nat) (policy : EvictionPolicy) : DynamicTable :=
  { capacity, policy }

/-! ## Contents -/

/-- The number of entries. -/
def length (table : DynamicTable) : Nat :=
  table.ring.count

/-- The entry at an index, the newest being at index 1. -/
def get? (table : DynamicTable) (index : Nat) : Option Field :=
  if index = 0 then none else table.ring.get? (index - 1)

/-- The entries, newest first. -/
def toList (table : DynamicTable) : List Field :=
  table.ring.toList

/-- The index of the newest entry of a name. -/
def findName? (table : DynamicTable) (name : Octets) : Option Nat :=
  (table.latestByName.get? name).map (table.inserted - ·)

/-- The index of the newest entry that is a given field. -/
def find? (table : DynamicTable) (field : Field) : Option Nat :=
  (table.latestByField.get? field).map (table.inserted - ·)

/-! ## Removal -/

/-- Forget the insertion number of a field that has left, unless a newer one took its place. -/
def forget (table : DynamicTable) (field : Field) (number : Nat) : DynamicTable :=
  { table with
    latestByName :=
      if table.latestByName.get? field.name = some number then
        table.latestByName.erase field.name
      else table.latestByName
    latestByField :=
      if table.latestByField.get? field = some number then table.latestByField.erase field
      else table.latestByField }

/-- Take out the oldest entry. -/
def evictOldest? (table : DynamicTable) : Option (Field × DynamicTable) :=
  table.ring.popOldest?.map fun popped ↦
    (popped.1,
      { table with ring := popped.2, size := table.size - popped.1.size }.forget popped.1
        (table.inserted - table.length))

/-- Take out the `count` oldest entries, or all if there are fewer. -/
def evictOldest (table : DynamicTable) : (count : Nat) → DynamicTable
  | 0 => table
  | count + 1 =>
    match table.evictOldest? with
    | none => table
    | some evicted => evicted.2.evictOldest count

/-- Evict in rounds until an entry of size `incoming` fits, in at most `rounds` rounds. -/
def makeRoom (policy : EvictionPolicy) (incoming : Nat) :
    (rounds : Nat) → DynamicTable → DynamicTable
  | 0, table => table
  | rounds + 1, table =>
    if EvictionPolicy.overflows table.size incoming table.capacity then
      makeRoom policy incoming rounds
        (table.evictOldest (policy.roundLength table.size incoming table.capacity))
    else table

/-- Take out all entries. -/
def clear (table : DynamicTable) : DynamicTable :=
  { table with ring := table.ring.clear, size := 0, latestByName := ∅, latestByField := ∅ }

/-! ## Insertion and capacity -/

/-- Insert an entry that fits. -/
def insertNewest (table : DynamicTable) (field : Field) : DynamicTable :=
  { table with
    ring := table.ring.push field
    size := table.size + field.size
    inserted := table.inserted + 1
    latestByName := table.latestByName.insert field.name table.inserted
    latestByField := table.latestByField.insert field table.inserted }

/-- Insert a field as the newest entry and evict as the policy says. A field larger than the whole
capacity empties the table and is not inserted. -/
def add (table : DynamicTable) (field : Field) : DynamicTable :=
  if table.capacity < field.size then table.clear
  else (makeRoom table.policy field.size table.length table).insertNewest field

/-- Change the capacity. Whatever the policy, the oldest entries leave one at a time. -/
def setCapacity (table : DynamicTable) (capacity : Nat) : DynamicTable :=
  makeRoom .fifo 0 table.length { table with capacity }

def setPolicy (table : DynamicTable) (policy : EvictionPolicy) : DynamicTable :=
  { table with policy }

end DynamicTable

end HeaderCompression.Table
