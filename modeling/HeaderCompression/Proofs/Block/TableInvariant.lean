import HeaderCompression.Proofs.Block.Histories
import HeaderCompression.Proofs.Decoder.Moves
import HeaderCompression.Proofs.Table.History
import HeaderCompression.Proofs.Table.IndexSpace

/-!
# The table of a decoder

The capacity of the table is changed by size updates on the wire and by the application, and the
table is cleared in the middle of a literal that cannot fit. Whatever comes together, the size of
the table is the sum of the sizes of its entries, it fits in the capacity, the capacity stays within
the largest one allowed, and no entry has an empty name.
-/

namespace HeaderCompression

open Octets Table Wire

/-! ## Names -/

namespace Table

namespace DynamicTable

/-- Every entry of the table has a name. -/
def IsNamed (table : DynamicTable) : Prop :=
  ∀ entry ∈ table.toList, entry.name ≠ []

end DynamicTable

theorem IndexSpace.name_ne_nil {table : DynamicTable} (htable : table.WellFormed)
    (hnamed : table.IsNamed) {index : Nat} {field : Field}
    (hfield : IndexSpace.resolve table index = .ok field) : field.name ≠ [] := by
  have hstatic : ∀ entry ∈ StaticTable.entries.toList, entry.name ≠ [] := by decide +kernel
  rcases IndexSpace.mem_of_resolve htable.refines hfield with hentry | hentry
  · exact hstatic field hentry
  · exact hnamed field hentry

end Table

/-- The name of the literal being read, if there is one, is not empty. -/
def Stage.IsNamed : Stage → Prop
  | .valueLength _ (some octets) _ => octets ≠ []
  | .value _ octets _ _ => octets ≠ []
  | _ => True

namespace Decoder

variable {decoder : Decoder} {completed : Decoder × Option Header}

/-! ## Steps -/

/-- The capacity stays within the limit, and no name is empty. -/
structure TableKept (decoder : Decoder) : Prop where
  capacity_le : decoder.table.capacity ≤ decoder.tableSizeLimit
  named : decoder.table.IsNamed
  stage : decoder.stage.IsNamed

namespace TableKept

theorem withStage (hkept : decoder.TableKept) {stage : Stage} (hstage : stage.IsNamed) :
    TableKept { decoder with stage } :=
  { hkept with stage := hstage }

theorem passesOver (hkept : decoder.TableKept) (hvalid : decoder.Valid) (indexing : Indexing)
    (length : Nat) : (decoder.passesOver indexing length).2.TableKept := by
  have hexhausted : TableKept { decoder with budget := decoder.budget.exhaust } :=
    { hkept with }
  unfold Decoder.passesOver
  split
  · exact hkept
  · cases indexing with
    | without => exact hexhausted
    | never => exact hexhausted
    | incremental =>
      dsimp only
      split
      · have hnamed : decoder.table.clear.IsNamed := by
          intro entry hentry
          rw [hvalid.table.toList_clear] at hentry
          exact absurd hentry List.not_mem_nil
        exact { hexhausted with named := hnamed }
      · exact hexhausted

theorem decided (hkept : decoder.TableKept) (hvalid : decoder.Valid) {decided : Decoder}
    (hdecided : decoder.Decided decided) : decided.TableKept := by
  cases hdecided with
  | undecided => exact hkept
  | decision indexing length => exact hkept.passesOver hvalid indexing length

theorem deliver (hkept : decoder.TableKept) (header : Header) :
    (decoder.deliver header).1.TableKept := by
  unfold Decoder.deliver
  split
  · exact { hkept with stage := trivial }
  · exact { hkept with stage := trivial }

theorem setCapacity (hkept : decoder.TableKept) (hvalid : decoder.Valid) {capacity limit : Nat}
    (hcapacity : capacity ≤ limit) :
    TableKept { decoder with table := decoder.table.setCapacity capacity, tableSizeLimit := limit }
    where
  capacity_le := by
    rw [hvalid.table.capacity_setCapacity]
    exact hcapacity
  named entry hentry := hkept.named entry (hvalid.table.mem_setCapacity hentry)
  stage := hkept.stage

theorem deliverLiteral (hkept : decoder.TableKept) (hvalid : decoder.Valid) (indexing : Indexing)
    {field : Field} (hname : field.name ≠ []) :
    (decoder.deliverLiteral indexing field).1.TableKept := by
  have hdelivered := hkept.deliver { field, sensitive := indexing = .never }
  have htable := (hvalid.deliver { field, sensitive := indexing = .never }).table
  unfold Decoder.deliverLiteral
  cases indexing with
  | without => exact hdelivered
  | never => exact hdelivered
  | incremental =>
    refine ⟨?_, ?_, hdelivered.stage⟩
    · dsimp only
      rw [htable.capacity_add]
      exact hdelivered.capacity_le
    · intro entry hentry
      rcases htable.mem_add hentry with rfl | hold
      · exact hname
      · exact hdelivered.named entry hold

theorem move (hkept : decoder.TableKept) (hvalid : decoder.Valid)
    (hmove : decoder.Move completed) : completed.1.TableKept := by
  cases hmove with
  | index opening => exact hkept.withStage trivial
  | indexed hfield => exact hkept.deliver _
  | resized hcapacity => exact (hkept.setCapacity hvalid hcapacity).withStage trivial
  | nameLength indexing part => exact hkept.withStage trivial
  | nameIndexed indexing hfield =>
    exact hkept.withStage (IndexSpace.name_ne_nil hvalid.table hkept.named hfield)
  | nameKept hdecided hpos hlongest =>
    exact (hkept.decided hvalid (.of_eq hdecided)).withStage trivial
  | nameSkipped hdecided hpos hlongest =>
    exact (hkept.decided hvalid (.of_eq hdecided)).withStage trivial
  | nameRead hstage hread hname => exact hkept.withStage hname
  | nameDropped indexing => exact hkept.withStage trivial
  | @valueLength indexing name? part hstage next =>
    have hnamed := hkept.stage
    rw [hstage] at hnamed
    cases name? with
    | none => exact hkept.withStage trivial
    | some name => exact hkept.withStage hnamed
  | valueKept hstage hdecided hpos hlongest =>
    have hnamed := hkept.stage
    rw [hstage] at hnamed
    exact (hkept.decided hvalid (.of_eq hdecided)).withStage hnamed
  | valueEmpty hstage hdecided =>
    have hnamed := hkept.stage
    rw [hstage] at hnamed
    exact (hkept.decided hvalid hdecided).deliverLiteral (hvalid.decided hdecided) _ hnamed
  | valueRead hstage value =>
    have hnamed := hkept.stage
    rw [hstage] at hnamed
    exact hkept.deliverLiteral hvalid _ hnamed
  | valueSkipped hdecided hpos hlongest =>
    exact (hkept.decided hvalid hdecided).withStage trivial
  | valueDropped hdecided => exact (hkept.decided hvalid hdecided).withStage trivial

theorem waits (hkept : decoder.TableKept) {next : Decoder} (hwaits : decoder.Waits next) :
    next.TableKept := by
  cases hwaits with
  | unchanged => exact hkept
  | skippedName hstage hpos hfewer => exact hkept.withStage trivial
  | skippedValue hstage hpos hfewer => exact hkept.withStage trivial

theorem run (hkept : decoder.TableKept) (hvalid : decoder.Valid) (steps : Nat) (unread : Octets) :
    (decoder.run steps unread).decoder.TableKept :=
  run_induction (fun _ _ hvalid hkept hmove ↦ hkept.move hvalid hmove)
    (fun _ _ hkept hwaits ↦ hkept.waits hwaits) hvalid hkept steps unread

/-! ## Adjustments -/

theorem ofSettings (settings : DecoderSettings) : (Decoder.ofSettings settings).TableKept where
  capacity_le := Nat.le_refl settings.tableSizeLimit
  named _ hentry := absurd hentry List.not_mem_nil
  stage := trivial

theorem endBlock (hkept : decoder.TableKept) : decoder.endBlock.2.TableKept :=
  { hkept with stage := trivial }

theorem resize (hkept : decoder.TableKept) (hvalid : decoder.Valid) {capacity : Nat}
    {resized : Decoder} (hresize : decoder.resize capacity = .ok resized) : resized.TableKept := by
  unfold Decoder.resize at hresize
  split at hresize
  · cases hresize
  · rename_i hcapacity
    obtain rfl := Except.ok.inj hresize
    exact hkept.setCapacity hvalid (Nat.le_of_not_lt hcapacity)

theorem setTableSizeLimit (hkept : decoder.TableKept) (hvalid : decoder.Valid) (limit : Nat) :
    (decoder.setTableSizeLimit limit).TableKept := by
  unfold Decoder.setTableSizeLimit
  split
  · exact hkept.setCapacity hvalid (Nat.le_refl limit)
  · rename_i hfits
    exact { hkept with capacity_le := Nat.le_of_not_lt hfits }

theorem setPolicy (hkept : decoder.TableKept) (policy : EvictionPolicy) :
    (decoder.setPolicy policy).TableKept :=
  { hkept with }

end TableKept

end Decoder

/-! ## Histories -/

namespace Block.Reader

theorem tableKept_perform {reader : Reader} (hvalid : reader.decoder.Valid)
    (hkept : reader.decoder.TableKept) (operation : Operation) :
    (reader.perform operation).decoder.TableKept :=
  perform_induction (fun steps unread ↦ hkept.run hvalid steps unread) hkept.endBlock
    (fun _ _ hresize ↦ hkept.resize hvalid hresize)
    (fun limit ↦ hkept.setTableSizeLimit hvalid limit) (fun policy ↦ hkept.setPolicy policy)
    hkept operation

theorem tableKept_foldl_perform {reader : Reader} (hvalid : reader.decoder.Valid)
    (hkept : reader.decoder.TableKept) (operations : List Operation) :
    (operations.foldl perform reader).decoder.TableKept := by
  induction operations generalizing reader with
  | nil => exact hkept
  | cons operation operations hoperations =>
    exact hoperations (valid_perform hvalid operation) (tableKept_perform hvalid hkept operation)

/-- After any history, and after any number of steps into the octets that come next, the size of the
table is that of its entries, it is within the capacity, the capacity is within the largest one
allowed, and every entry has a name. -/
theorem table_invariant_of_history (settings : DecoderSettings) (operations : List Operation)
    (steps : Nat) (octets : Octets) :
    let decoder :=
      ((operations.foldl perform (ofSettings settings)).decoder.run steps octets).decoder
    decoder.table.size = totalSize decoder.table.toList ∧
      decoder.table.size ≤ decoder.table.capacity ∧
      decoder.table.capacity ≤ decoder.tableSizeLimit ∧
      ∀ entry ∈ decoder.table.toList, entry.name ≠ [] := by
  have hvalid : (operations.foldl perform (ofSettings settings)).decoder.Valid :=
    valid_foldl_perform (.ofSettings settings) operations
  have hkept : (operations.foldl perform (ofSettings settings)).decoder.TableKept :=
    tableKept_foldl_perform (.ofSettings settings) (.ofSettings settings) operations
  have htable := (hvalid.run steps octets).table
  have hrun := hkept.run hvalid steps octets
  refine ⟨htable.size_eq, ?_, hrun.capacity_le, hrun.named⟩
  rw [htable.size_eq]
  exact htable.fits

end Block.Reader

end HeaderCompression
