import HeaderCompression.Proofs.Table.History
import HeaderCompression.Proofs.Table.NameIndex

/-!
# Tables with nested numbers

A table with one search tree, in which values are nested under their names, goes through the same
operations as a table with two search trees side by side, and all views of the two remain the same.
-/

namespace HeaderCompression.Table

/-- A table whose insertion numbers are nested. -/
structure NestedTable where
  ring : RingBuffer Field := .empty
  size : Nat := 0
  capacity : Nat
  policy : EvictionPolicy := .fifo
  inserted : Nat := 0
  names : NameIndex := ∅

namespace NestedTable

/-- An empty table. -/
def ofCapacity (capacity : Nat) (policy : EvictionPolicy) : NestedTable :=
  { capacity, policy }

def length (nested : NestedTable) : Nat :=
  nested.ring.count

def get? (nested : NestedTable) (index : Nat) : Option Field :=
  if index = 0 then none else nested.ring.get? (index - 1)

/-- The entries, newest first. -/
def toList (nested : NestedTable) : List Field :=
  nested.ring.toList

def findName? (nested : NestedTable) (name : Octets) : Option Nat :=
  (nested.names.latest? name).map (nested.inserted - ·)

def find? (nested : NestedTable) (field : Field) : Option Nat :=
  (nested.names.number? field).map (nested.inserted - ·)

/-- Take out the oldest entry. -/
def evictOldest? (nested : NestedTable) : Option (Field × NestedTable) :=
  nested.ring.popOldest?.map fun popped ↦
    (popped.1,
      { nested with
        ring := popped.2
        size := nested.size - popped.1.size
        names := nested.names.forget popped.1 (nested.inserted - nested.length) })

/-- Take out the `count` oldest entries, or all if there are fewer. -/
def evictOldest (nested : NestedTable) : (count : Nat) → NestedTable
  | 0 => nested
  | count + 1 =>
    match nested.evictOldest? with
    | none => nested
    | some evicted => evicted.2.evictOldest count

/-- Evict in rounds until an entry of size `incoming` fits, in at most `rounds` rounds. -/
def makeRoom (policy : EvictionPolicy) (incoming : Nat) :
    (rounds : Nat) → NestedTable → NestedTable
  | 0, nested => nested
  | rounds + 1, nested =>
    if EvictionPolicy.overflows nested.size incoming nested.capacity then
      makeRoom policy incoming rounds
        (nested.evictOldest (policy.roundLength nested.size incoming nested.capacity))
    else nested

def clear (nested : NestedTable) : NestedTable :=
  { nested with ring := nested.ring.clear, size := 0, names := ∅ }

def insertNewest (nested : NestedTable) (field : Field) : NestedTable :=
  { nested with
    ring := nested.ring.push field
    size := nested.size + field.size
    inserted := nested.inserted + 1
    names := nested.names.record field nested.inserted }

def add (nested : NestedTable) (field : Field) : NestedTable :=
  if nested.capacity < field.size then nested.clear
  else (makeRoom nested.policy field.size nested.length nested).insertNewest field

def setCapacity (nested : NestedTable) (capacity : Nat) : NestedTable :=
  makeRoom .fifo 0 nested.length { nested with capacity }

def setPolicy (nested : NestedTable) (policy : EvictionPolicy) : NestedTable :=
  { nested with policy }

def perform (nested : NestedTable) : Operation → NestedTable
  | .add field => nested.add field
  | .removeOldest => (nested.evictOldest?.map Prod.snd).getD nested
  | .clear => nested.clear
  | .setCapacity capacity => nested.setCapacity capacity
  | .setPolicy policy => nested.setPolicy policy

/-! ## Simulation -/

/-- A well-formed table that differs from the nested one in its search trees only, and these
agree. -/
structure Mirrors (nested : NestedTable) (table : DynamicTable) : Prop where
  ring_eq : nested.ring = table.ring
  size_eq : nested.size = table.size
  capacity_eq : nested.capacity = table.capacity
  policy_eq : nested.policy = table.policy
  inserted_eq : nested.inserted = table.inserted
  names : nested.names.Agrees table.latestByName table.latestByField
  refines : table.Refines table.listing

theorem mirrors_ofCapacity (capacity : Nat) (policy : EvictionPolicy) :
    (ofCapacity capacity policy).Mirrors (.ofCapacity capacity policy) where
  ring_eq := rfl
  size_eq := rfl
  capacity_eq := rfl
  policy_eq := rfl
  inserted_eq := rfl
  names := NameIndex.agrees_empty
  refines := (DynamicTable.wellFormed_ofCapacity capacity policy).refines

namespace Mirrors

variable {nested : NestedTable} {table : DynamicTable}

/-! ### Lookups -/

theorem length_eq (hmirrors : nested.Mirrors table) : nested.length = table.length :=
  congrArg RingBuffer.count hmirrors.ring_eq

theorem toList_eq (hmirrors : nested.Mirrors table) : nested.toList = table.toList :=
  congrArg RingBuffer.toList hmirrors.ring_eq

theorem get?_eq (hmirrors : nested.Mirrors table) (index : Nat) :
    nested.get? index = table.get? index := by
  rw [NestedTable.get?, hmirrors.ring_eq, DynamicTable.get?]

theorem findName?_eq (hmirrors : nested.Mirrors table) (name : Octets) :
    nested.findName? name = table.findName? name := by
  rw [NestedTable.findName?, hmirrors.names.latest?_eq, hmirrors.inserted_eq]
  rfl

theorem find?_eq (hmirrors : nested.Mirrors table) (field : Field) :
    nested.find? field = table.find? field := by
  rw [NestedTable.find?, hmirrors.names.number?_eq, hmirrors.inserted_eq]
  rfl

/-! ### Operations -/

/-- The trees agree also when the oldest entry has left them. -/
theorem names_forget (hmirrors : nested.Mirrors table) {entries : List Field} {oldest : Field}
    (hentries : table.listing.entries = entries ++ [oldest]) :
    (nested.names.forget oldest (nested.inserted - nested.length)).Agrees
      (table.forget oldest (table.inserted - table.length)).latestByName
      (table.forget oldest (table.inserted - table.length)).latestByField := by
  have hnames := hmirrors.refines.names
  have hfields := hmirrors.refines.fields
  have hlength := hmirrors.refines.length_le
  have hcount := hmirrors.refines.length_eq
  rw [hentries] at hnames hfields hlength hcount
  rw [List.length_append, List.length_singleton] at hlength hcount
  rw [hmirrors.inserted_eq, hmirrors.length_eq, hcount]
  exact hmirrors.names.forget hnames hfields hlength

/-- The same entry leaves on both sides. -/
theorem evictOldest? (hmirrors : nested.Mirrors table) :
    Option.Rel (fun first second ↦ first.1 = second.1 ∧ first.2.Mirrors second.2)
      nested.evictOldest? table.evictOldest? := by
  rw [NestedTable.evictOldest?, hmirrors.ring_eq]
  cases hpop : table.ring.popOldest? with
  | none =>
    rw [DynamicTable.evictOldest?, hpop]
    exact .none
  | some popped =>
    have hevict : table.evictOldest? =
        some (popped.1, { table with ring := popped.2, size := table.size - popped.1.size }.forget
          popped.1 (table.inserted - table.length)) := by
      rw [DynamicTable.evictOldest?, hpop, Option.map_some]
    obtain ⟨entries, hentries, hrest⟩ := hmirrors.refines.evictOldest?_eq_some hevict
    rw [hevict]
    refine .some ⟨rfl, ?_⟩
    exact {
      ring_eq := rfl
      size_eq := congrArg (· - popped.1.size) hmirrors.size_eq
      capacity_eq := hmirrors.capacity_eq
      policy_eq := hmirrors.policy_eq
      inserted_eq := hmirrors.inserted_eq
      names := hmirrors.names_forget hentries
      refines := hrest.refines_listing }

theorem evictOldest (hmirrors : nested.Mirrors table) (count : Nat) :
    (nested.evictOldest count).Mirrors (table.evictOldest count) := by
  induction count generalizing nested table with
  | zero => exact hmirrors
  | succ count hcount =>
    have hevicted := hmirrors.evictOldest?
    rw [NestedTable.evictOldest, DynamicTable.evictOldest]
    generalize nested.evictOldest? = first, table.evictOldest? = second at hevicted ⊢
    cases hevicted with
    | none => exact hmirrors
    | some hboth => exact hcount hboth.2

theorem makeRoom (hmirrors : nested.Mirrors table) (policy : EvictionPolicy) (incoming : Nat)
    (rounds : Nat) :
    (NestedTable.makeRoom policy incoming rounds nested).Mirrors
      (DynamicTable.makeRoom policy incoming rounds table) := by
  induction rounds generalizing nested table with
  | zero => exact hmirrors
  | succ rounds hrounds =>
    unfold NestedTable.makeRoom DynamicTable.makeRoom
    rw [hmirrors.size_eq, hmirrors.capacity_eq]
    split
    · exact hrounds (hmirrors.evictOldest _)
    · exact hmirrors

theorem clear (hmirrors : nested.Mirrors table) : nested.clear.Mirrors table.clear where
  ring_eq := congrArg RingBuffer.clear hmirrors.ring_eq
  size_eq := rfl
  capacity_eq := hmirrors.capacity_eq
  policy_eq := hmirrors.policy_eq
  inserted_eq := hmirrors.inserted_eq
  names := NameIndex.agrees_empty
  refines := hmirrors.refines.clear.refines_listing

theorem insertNewest (hmirrors : nested.Mirrors table) (field : Field) :
    (nested.insertNewest field).Mirrors (table.insertNewest field) where
  ring_eq := congrArg (RingBuffer.push · field) hmirrors.ring_eq
  size_eq := congrArg (· + field.size) hmirrors.size_eq
  capacity_eq := hmirrors.capacity_eq
  policy_eq := hmirrors.policy_eq
  inserted_eq := congrArg (· + 1) hmirrors.inserted_eq
  names := by
    rw [NestedTable.insertNewest, hmirrors.inserted_eq]
    exact hmirrors.names.record field table.inserted
  refines := (hmirrors.refines.insertNewest field).refines_listing

theorem add (hmirrors : nested.Mirrors table) (field : Field) :
    (nested.add field).Mirrors (table.add field) := by
  unfold NestedTable.add DynamicTable.add
  rw [hmirrors.capacity_eq, hmirrors.policy_eq, hmirrors.length_eq]
  split
  · exact hmirrors.clear
  · exact (hmirrors.makeRoom table.policy field.size table.length).insertNewest field

theorem setCapacity (hmirrors : nested.Mirrors table) (capacity : Nat) :
    (nested.setCapacity capacity).Mirrors (table.setCapacity capacity) := by
  have hchanged : { nested with capacity : NestedTable }.Mirrors { table with capacity } :=
    { hmirrors with
      capacity_eq := rfl
      refines := { hmirrors.refines with capacity_eq := rfl } }
  unfold NestedTable.setCapacity DynamicTable.setCapacity
  rw [hmirrors.length_eq]
  exact hchanged.makeRoom .fifo 0 table.length

theorem setPolicy (hmirrors : nested.Mirrors table) (policy : EvictionPolicy) :
    (nested.setPolicy policy).Mirrors (table.setPolicy policy) :=
  { hmirrors with
    policy_eq := rfl
    refines := { hmirrors.refines with policy_eq := rfl } }

theorem removeOldest (hmirrors : nested.Mirrors table) :
    (nested.perform .removeOldest).Mirrors (table.perform .removeOldest) := by
  have hevicted := hmirrors.evictOldest?
  rw [NestedTable.perform, DynamicTable.perform]
  generalize nested.evictOldest? = first, table.evictOldest? = second at hevicted ⊢
  cases hevicted with
  | none => exact hmirrors
  | some hboth => exact hboth.2

theorem perform (hmirrors : nested.Mirrors table) (operation : Operation) :
    (nested.perform operation).Mirrors (table.perform operation) := by
  cases operation with
  | add field => exact hmirrors.add field
  | removeOldest => exact hmirrors.removeOldest
  | clear => exact hmirrors.clear
  | setCapacity capacity => exact hmirrors.setCapacity capacity
  | setPolicy policy => exact hmirrors.setPolicy policy

theorem foldl_perform (hmirrors : nested.Mirrors table) (operations : List Operation) :
    (operations.foldl NestedTable.perform nested).Mirrors
      (operations.foldl DynamicTable.perform table) := by
  induction operations generalizing nested table with
  | nil => exact hmirrors
  | cons operation operations hoperations => exact hoperations (hmirrors.perform operation)

end Mirrors

/-- After any operations all views of the two tables are the same. -/
theorem views_eq_of_operations (capacity : Nat) (policy : EvictionPolicy)
    (operations : List Operation) :
    let nested := operations.foldl perform (ofCapacity capacity policy)
    let table := operations.foldl DynamicTable.perform (.ofCapacity capacity policy)
    nested.length = table.length ∧ nested.size = table.size ∧
      nested.capacity = table.capacity ∧ nested.policy = table.policy ∧
      nested.toList = table.toList ∧ (∀ index, nested.get? index = table.get? index) ∧
      (∀ field, nested.find? field = table.find? field) ∧
      ∀ name, nested.findName? name = table.findName? name := by
  intro nested table
  have hmirrors : nested.Mirrors table :=
    (mirrors_ofCapacity capacity policy).foldl_perform operations
  exact ⟨hmirrors.length_eq, hmirrors.size_eq, hmirrors.capacity_eq, hmirrors.policy_eq,
    hmirrors.toList_eq, hmirrors.get?_eq, hmirrors.find?_eq, hmirrors.findName?_eq⟩

end NestedTable

end HeaderCompression.Table
