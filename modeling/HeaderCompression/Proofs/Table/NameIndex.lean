import HeaderCompression.Field
import HeaderCompression.Proofs.Table.LatestInsertions

/-!
# Values nested under their names

The numbers of latest insertions can be kept in one search tree of names, where each name has the
number of its newest entry and below it a search tree of the numbers of its values. The name is
dropped with all values below it when its newest entry leaves. Entries leave in the order of their
insertion, so no other entry of that name is left by then, and every lookup finds what it finds in
two trees side by side.
-/

namespace HeaderCompression.Table

/-! ## Values of a name -/

/-- What is kept of the entries of one name. -/
structure NamedValues where
  /-- The number of the newest of them. -/
  latest : Nat := 0
  /-- The number of the newest of them with each value. -/
  values : Std.TreeMap Octets Nat := ∅

namespace NamedValues

/-- Note the insertion number of a value. -/
def record (named : NamedValues) (value : Octets) (number : Nat) : NamedValues where
  latest := number
  values := named.values.insert value number

/-- Forget the insertion number of a value that has left, unless a newer one took its place. -/
def forget (named : NamedValues) (value : Octets) (number : Nat) : NamedValues :=
  { named with
    values :=
      if named.values[value]? = some number then named.values.erase value else named.values }

end NamedValues

/-! ## Names with their values -/

abbrev NameIndex := Std.TreeMap Octets NamedValues

namespace NameIndex

/-- The number of the newest entry of a name. -/
def latest? (names : NameIndex) (name : Octets) : Option Nat :=
  names[name]?.map NamedValues.latest

/-- The number of the newest entry that is a given field. -/
def number? (names : NameIndex) (field : Field) : Option Nat :=
  names[field.name]?.bind fun named ↦ named.values[field.value]?

/-- Note the insertion number of a field. -/
def record (names : NameIndex) (field : Field) (number : Nat) : NameIndex :=
  names.insert field.name ((names[field.name]?.getD { }).record field.value number)

/-- Forget the insertion number of a field that has left, and the whole name if it is the latest
number there. -/
def forget (names : NameIndex) (field : Field) (number : Nat) : NameIndex :=
  match names[field.name]? with
  | none => names
  | some named =>
    let kept := named.forget field.value number
    if kept.latest = number then names.erase field.name else names.insert field.name kept

variable {names : NameIndex} {field other : Field} {name : Octets} {number : Nat}

theorem eq_iff_value_eq (hname : field.name = other.name) :
    field = other ↔ field.value = other.value := by
  constructor
  · exact congrArg Field.value
  · intro hvalue
    obtain ⟨name, value⟩ := field
    obtain rfl : name = other.name := hname
    obtain rfl : value = other.value := hvalue
    rfl

/-! ## Recording -/

theorem latest?_record :
    (names.record field number).latest? name =
      if field.name = name then some number else names.latest? name := by
  rw [latest?, record, getElem?_insert]
  split <;> rfl

theorem number?_record :
    (names.record field number).number? other =
      if field = other then some number else names.number? other := by
  rw [number?, record, getElem?_insert]
  by_cases hname : field.name = other.name
  · have hbefore : (names[field.name]?.getD { }).values[other.value]? = names.number? other := by
      rw [number?, ← hname]
      cases names[field.name]? with
      | none => exact Std.TreeMap.getElem?_emptyc
      | some named => rfl
    rw [if_pos hname, Option.bind_some, NamedValues.record, getElem?_insert, hbefore]
    simp only [eq_iff_value_eq hname]
  · have hne : field ≠ other := mt (congrArg Field.name) hname
    rw [if_neg hname, if_neg hne, number?]

/-! ## Forgetting -/

theorem forget_of_latest (hlatest : names.latest? field.name = some number) :
    names.forget field number = names.erase field.name := by
  obtain ⟨named, hnamed, rfl⟩ := Option.map_eq_some_iff.1 hlatest
  rw [forget, hnamed]
  exact if_pos rfl

theorem latest?_erase :
    latest? (names.erase field.name) name =
      if field.name = name then none else names.latest? name := by
  rw [latest?, getElem?_erase]
  split <;> rfl

theorem number?_erase :
    number? (names.erase field.name) other =
      if field.name = other.name then none else names.number? other := by
  rw [number?, getElem?_erase]
  split <;> rfl

/-- As long as the number is not the latest of its name, the name stays. -/
theorem getElem?_forget_of_ne (hlatest : names.latest? field.name ≠ some number) :
    (names.forget field number)[name]? =
      if field.name = name then names[name]?.map (·.forget field.value number)
      else names[name]? := by
  unfold forget
  cases hnamed : names[field.name]? with
  | none =>
    by_cases hname : field.name = name
    · rw [if_pos hname, ← hname, hnamed, Option.map_none]
    · rw [if_neg hname]
  | some named =>
    have hne : (named.forget field.value number).latest ≠ number := by
      intro heq
      apply hlatest
      rw [latest?, hnamed, Option.map_some, ← heq]
      rfl
    dsimp only
    rw [if_neg hne, getElem?_insert]
    by_cases hname : field.name = name
    · rw [if_pos hname, if_pos hname, ← hname, hnamed, Option.map_some]
    · rw [if_neg hname, if_neg hname]

theorem latest?_forget_of_ne (hlatest : names.latest? field.name ≠ some number) :
    (names.forget field number).latest? name = names.latest? name := by
  rw [latest?, getElem?_forget_of_ne hlatest]
  split
  · rw [Option.map_map]
    rfl
  · rfl

theorem number?_forget_of_ne (hlatest : names.latest? field.name ≠ some number) :
    (names.forget field number).number? other =
      if field = other ∧ names.number? field = some number then none else names.number? other := by
  rw [number?, getElem?_forget_of_ne hlatest]
  by_cases hname : field.name = other.name
  · simp only [eq_iff_value_eq hname, number?, hname]
    cases names[other.name]? with
    | none => exact (ite_self none).symm
    | some named => exact getElem?_erase_of_eq named.values field.value other.value number
  · have hne : field ≠ other := mt (congrArg Field.name) hname
    rw [if_neg hname, if_neg fun hboth ↦ hne hboth.1, number?]

/-! ## Two trees side by side -/

/-- Both lookups find the same as in a tree of names and a tree of fields. -/
structure Agrees (names : NameIndex) (byName : Std.TreeMap Octets Nat)
    (byField : Std.TreeMap Field Nat) : Prop where
  latest?_eq (name : Octets) : names.latest? name = byName[name]?
  number?_eq (field : Field) : names.number? field = byField[field]?

theorem agrees_empty : Agrees ∅ ∅ ∅ where
  latest?_eq name := by
    rw [latest?, Std.TreeMap.getElem?_emptyc, Std.TreeMap.getElem?_emptyc, Option.map_none]
  number?_eq field := by
    rw [number?, Std.TreeMap.getElem?_emptyc, Std.TreeMap.getElem?_emptyc, Option.bind_none]

namespace Agrees

variable {byName : Std.TreeMap Octets Nat} {byField : Std.TreeMap Field Nat}

theorem record (hagrees : names.Agrees byName byField) (field : Field) (number : Nat) :
    (names.record field number).Agrees (byName.insert field.name number)
      (byField.insert field number) where
  latest?_eq name := by
    rw [latest?_record, getElem?_insert, hagrees.latest?_eq]
  number?_eq other := by
    rw [number?_record, getElem?_insert, hagrees.number?_eq]

/-- As long as the number is not the latest of its name, it is forgotten as a number of a value. -/
theorem forget_of_ne (hagrees : names.Agrees byName byField)
    (hother : byName[field.name]? ≠ some number) :
    (names.forget field number).Agrees byName
      (if byField[field]? = some number then byField.erase field else byField) := by
  rw [← hagrees.latest?_eq] at hother
  constructor
  · intro name
    rw [latest?_forget_of_ne hother, hagrees.latest?_eq]
  · intro other
    rw [number?_forget_of_ne hother, getElem?_erase_of_eq, hagrees.number?_eq field,
      hagrees.number?_eq other]

/-- Nothing is lost with the values below a name if no number of them was to be kept. -/
theorem forget_of_latest (hagrees : names.Agrees byName byField)
    (hlatest : byName[field.name]? = some number)
    (hgone : ∀ other : Field, field.name = other.name →
      (if byField[field]? = some number then byField.erase field else byField)[other]? = none) :
    (names.forget field number).Agrees (byName.erase field.name)
      (if byField[field]? = some number then byField.erase field else byField) := by
  rw [NameIndex.forget_of_latest ((hagrees.latest?_eq field.name).trans hlatest)]
  constructor
  · intro name
    rw [latest?_erase, getElem?_erase, hagrees.latest?_eq]
  · intro other
    rw [number?_erase]
    by_cases hname : field.name = other.name
    · rw [if_pos hname, hgone other hname]
    · have hne : field ≠ other := mt (congrArg Field.name) hname
      rw [if_neg hname, getElem?_erase_of_eq, if_neg fun hboth ↦ hne hboth.1, hagrees.number?_eq]

/-- If the oldest entry is the newest of its name, no other entry has that name, and so no number
below it is to be kept. -/
theorem forget (hagrees : names.Agrees byName byField) {entries : List Field} {oldest : Field}
    {inserted : Nat} (hnames : Tracks byName Field.name (entries ++ [oldest]) inserted)
    (hfields : Tracks byField id (entries ++ [oldest]) inserted)
    (hinserted : entries.length < inserted) :
    let number := inserted - (entries.length + 1)
    (names.forget oldest number).Agrees
      (if byName[oldest.name]? = some number then byName.erase oldest.name else byName)
      (if byField[oldest]? = some number then byField.erase oldest else byField) := by
  intro number
  by_cases hlatest : byName[oldest.name]? = some number
  · rw [if_pos hlatest]
    apply hagrees.forget_of_latest hlatest
    intro field hname
    have hnone : newestAge? id entries field = none := by
      apply newestAge?_eq_none_iff.2
      rintro entry hentry rfl
      exact hnames.key_ne_of_latest hinserted hlatest entry hentry hname.symm
    have hlookup := hfields.forget hinserted field
    rw [hnone] at hlookup
    exact hlookup
  · rw [if_neg hlatest]
    exact hagrees.forget_of_ne hlatest

end Agrees

end NameIndex

end HeaderCompression.Table
