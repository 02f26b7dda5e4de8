import HeaderCompression.Proofs.Checked.IntegerCoding
import HeaderCompression.Proofs.Octets.Arrival
import HeaderCompression.Proofs.Wire.PrefixedInteger
import Mathlib.Data.Nat.Digits.Defs

/-!
# What integers look like on the wire

Any octets are the beginning of a continuation, or begin with a whole one, or go on for too long,
and readers tell these cases apart. The octets of a whole continuation are the digits of a number
to the base 128, the lowest first. Nothing forbids digits that are zeros at the end, only more than
five of them.
-/

namespace HeaderCompression.Wire.PrefixedInteger

open Octets

/-! ## Digits -/

/-- After each of the octets a continuation goes on. -/
def GoesOn (octets : Octets) : Prop :=
  ∀ octet ∈ octets, 128 ≤ octet.toNat

/-- The number whose digits are the low seven bits of the octets, the lowest first. -/
def amount (octets : Octets) : Nat :=
  Nat.ofDigits 128 (octets.map fun octet ↦ octet.toNat % 128)

@[simp]
theorem amount_nil : amount [] = 0 := rfl

@[simp]
theorem amount_cons (octet : UInt8) (octets : Octets) :
    amount (octet :: octets) = octet.toNat % 128 + 128 * amount octets := by
  simp [amount, Nat.ofDigits_cons]

theorem goesOn_nil : GoesOn [] :=
  fun _ hmem ↦ absurd hmem List.not_mem_nil

theorem goesOn_cons_iff {octet : UInt8} {octets : Octets} :
    GoesOn (octet :: octets) ↔ 128 ≤ octet.toNat ∧ GoesOn octets :=
  List.forall_mem_cons

/-- Of any octets, at most `limit` go on at the beginning. What is behind them is empty, or does not
go on, or is behind `limit` octets. -/
theorem exists_goesOn_append (limit : Nat) (octets : Octets) :
    ∃ groups rest, octets = groups ++ rest ∧ GoesOn groups ∧ groups.length ≤ limit ∧
      ∀ octet ∈ rest.head?, octet.toNat < 128 ∨ groups.length = limit := by
  induction octets generalizing limit with
  | nil => exact ⟨[], [], rfl, goesOn_nil, Nat.zero_le limit, by simp⟩
  | cons octet octets hoctets =>
    by_cases hlast : octet.toNat < 128
    · exact ⟨[], octet :: octets, rfl, goesOn_nil, Nat.zero_le limit, by simp [hlast]⟩
    · cases limit with
      | zero => exact ⟨[], octet :: octets, rfl, goesOn_nil, Nat.le_refl 0, by simp⟩
      | succ limit =>
        obtain ⟨groups, rest, rfl, hgoesOn, hlength, hrest⟩ := hoctets limit
        refine ⟨octet :: groups, rest, rfl, goesOn_cons_iff.2 ⟨Nat.le_of_not_lt hlast, hgoesOn⟩,
          Nat.succ_le_succ hlength, fun next hnext ↦ ?_⟩
        exact (hrest next hnext).imp_right (congrArg (· + 1))

/-! ## Continuations -/

/-- Octets that end inside a continuation. -/
structure IsContinuationStart (octets : Octets) : Prop where
  goesOn : GoesOn octets
  length_le : octets.length ≤ 4

/-- A whole continuation: one of the first five octets ends it, the fifth with three bits only. -/
inductive IsContinuation : Octets → Nat → Prop
  | ended {groups : Octets} {last : UInt8} (hgoesOn : GoesOn groups) (hlength : groups.length ≤ 4)
      (hlast : last.toNat < 128) (hfifth : groups.length = 4 → last.toNat ≤ 7) :
      IsContinuation (groups ++ [last]) (amount (groups ++ [last]))

/-- The octets after which a continuation goes on add up. -/
theorem readGroups_append {group : Nat} (sum : Nat) {groups : Octets} (hgoesOn : GoesOn groups)
    (hlength : group + groups.length ≤ 4) (rest : Octets) :
    readGroups group sum (groups ++ rest) =
      readGroups (group + groups.length) (sum + amount groups * Bits.values (7 * group)) rest := by
  induction groups generalizing group sum with
  | nil => simp
  | cons octet groups hgroups =>
    obtain ⟨hoctet, hothers⟩ := goesOn_cons_iff.1 hgoesOn
    rw [List.length_cons] at hlength
    have hfits : ¬(group = 4 ∧ 8 ≤ octet.toNat) := by omega
    have hcontinues : ¬octet.toNat < 128 := Nat.not_lt_of_le hoctet
    have hplace : group + 1 + groups.length = group + (groups.length + 1) := by omega
    have hweight : sum + octet.toNat % 128 * Bits.values (7 * group) +
        amount groups * Bits.values (7 * (group + 1)) =
        sum + (octet.toNat % 128 + 128 * amount groups) * Bits.values (7 * group) := by
      rw [values_group_succ]
      ring
    rw [List.cons_append, readGroups, if_neg hfits]
    simp only [hcontinues, if_false]
    rw [hgroups _ hothers (by omega), hplace, hweight, amount_cons, List.length_cons]

theorem readContinuation_append {groups : Octets} (hgoesOn : GoesOn groups)
    (hlength : groups.length ≤ 4) (rest : Octets) :
    readContinuation (groups ++ rest) = readGroups groups.length (amount groups) rest := by
  rw [readContinuation, readGroups_append 0 hgoesOn (by omega)]
  simp [Bits.values]

theorem amount_append_singleton (groups : Octets) (last : UInt8) :
    amount (groups ++ [last]) =
      amount groups + last.toNat % 128 * Bits.values (7 * groups.length) := by
  induction groups with
  | nil => simp [Bits.values]
  | cons octet groups hgroups =>
    rw [List.cons_append, amount_cons, amount_cons, hgroups, List.length_cons,
      values_group_succ]
    ring

theorem readContinuation_of_start {octets : Octets} (hstart : IsContinuationStart octets) :
    readContinuation octets = .incomplete := by
  rw [← List.append_nil octets, readContinuation_append hstart.goesOn hstart.length_le, readGroups]

theorem readContinuation_of_whole {taken : Octets} {value : Nat} (hwhole : IsContinuation taken value)
    (rest : Octets) : readContinuation (taken ++ rest) = .complete value rest := by
  cases hwhole with
  | @ended groups last hgoesOn hlength hlast hfifth =>
    have hfits : ¬(groups.length = 4 ∧ 8 ≤ last.toNat) := by omega
    rw [List.append_assoc, List.singleton_append, readContinuation_append hgoesOn hlength,
      readGroups, if_neg hfits, amount_append_singleton]
    simp only [hlast, if_true]

theorem readContinuation_of_long {groups : Octets} {fifth : UInt8} (hgoesOn : GoesOn groups)
    (hlength : groups.length = 4) (hfifth : 8 ≤ fifth.toNat) (rest : Octets) :
    readContinuation (groups ++ fifth :: rest) = .failed .integerOverflow rest := by
  rw [readContinuation_append hgoesOn (Nat.le_of_eq hlength), readGroups,
    if_pos ⟨hlength, hfifth⟩]

theorem continuation_cases (octets : Octets) :
    IsContinuationStart octets ∨
      (∃ taken rest value, octets = taken ++ rest ∧ IsContinuation taken value) ∨
        ∃ rest, readContinuation octets = .failed .integerOverflow rest := by
  obtain ⟨groups, rest, rfl, hgoesOn, hlength, hnext⟩ := exists_goesOn_append 4 octets
  cases rest with
  | nil =>
    rw [List.append_nil]
    exact .inl ⟨hgoesOn, hlength⟩
  | cons last rest =>
    have hends := hnext last rfl
    by_cases hlong : groups.length = 4 ∧ 8 ≤ last.toNat
    · exact .inr (.inr ⟨rest, readContinuation_of_long hgoesOn hlong.1 hlong.2 rest⟩)
    · refine .inr (.inl ⟨groups ++ [last], rest, _, by simp, .ended hgoesOn hlength ?_ ?_⟩)
      · omega
      · omega

/-! ## Integers -/

/-- The low bits of the octet are all ones, so that a continuation follows. -/
def IsSaturated (width : Nat) (octet : UInt8) : Prop :=
  octet.toNat % Bits.values width = Bits.ones width

/-- Octets that end before an integer or inside it. -/
inductive IsStart (width : Nat) : Octets → Prop
  | nothing : IsStart width []
  | continued {first : UInt8} {octets : Octets} (hfirst : IsSaturated width first)
      (hoctets : IsContinuationStart octets) : IsStart width (first :: octets)

/-- A whole integer: an octet whose low bits are not all ones, or one with a continuation. -/
inductive IsInteger (width : Nat) : Octets → Nat → Prop
  | low {first : UInt8} (hfirst : ¬IsSaturated width first) :
      IsInteger width [first] (first.toNat % Bits.values width)
  | continued {first : UInt8} {taken : Octets} {value : Nat} (hfirst : IsSaturated width first)
      (htaken : IsContinuation taken value) :
      IsInteger width (first :: taken) (Bits.ones width + value)

theorem lt_ones_of_not_isSaturated {width : Nat} {octet : UInt8}
    (hoctet : ¬IsSaturated width octet) : octet.toNat % Bits.values width < Bits.ones width := by
  have hlow := Nat.mod_lt octet.toNat (Bits.values_pos width)
  unfold IsSaturated Bits.ones at *
  omega

theorem lowBits?_of_not_isSaturated {width : Nat} {octet : UInt8}
    (hoctet : ¬IsSaturated width octet) :
    lowBits? width octet = some (octet.toNat % Bits.values width) := by
  rw [lowBits?, if_pos (lt_ones_of_not_isSaturated hoctet)]

theorem lowBits?_of_isSaturated {width : Nat} {octet : UInt8} (hoctet : IsSaturated width octet) :
    lowBits? width octet = none := by
  have hlarge : ¬octet.toNat % Bits.values width < Bits.ones width :=
    Nat.not_lt_of_le (Nat.le_of_eq hoctet.symm)
  rw [lowBits?, if_neg hlarge]

theorem read_cons_of_not_isSaturated {width : Nat} {octet : UInt8}
    (hoctet : ¬IsSaturated width octet) (rest : Octets) :
    read width (octet :: rest) = .complete (octet.toNat % Bits.values width) rest := by
  rw [read, lowBits?_of_not_isSaturated hoctet]

theorem read_cons_of_isSaturated {width : Nat} {octet : UInt8} (hoctet : IsSaturated width octet)
    (rest : Octets) :
    read width (octet :: rest) = (readContinuation rest).map (Bits.ones width + ·) := by
  rw [read, lowBits?_of_isSaturated hoctet]

/-! ## Classification -/

/-- A reader of numbers leaves the start of a number alone, reads a number and nothing behind it,
and takes anything else for too large a number. -/
structure Classifies (reader : Octets → Reading Nat) (Start : Octets → Prop)
    (Number : Octets → Nat → Prop) : Prop where
  incomplete {octets : Octets} : Start octets → reader octets = .incomplete
  complete {taken : Octets} {value : Nat} : Number taken value →
    ∀ rest, reader (taken ++ rest) = .complete value rest
  exhaustive (octets : Octets) :
    Start octets ∨ (∃ taken rest value, octets = taken ++ rest ∧ Number taken value) ∨
      ∃ rest, reader octets = .failed .integerOverflow rest

theorem Classifies.exists_of_complete {reader : Octets → Reading Nat} {Start : Octets → Prop}
    {Number : Octets → Nat → Prop} (hclassifies : Classifies reader Start Number)
    {octets rest : Octets} {value : Nat} (hread : reader octets = .complete value rest) :
    ∃ taken, octets = taken ++ rest ∧ Number taken value := by
  rcases hclassifies.exhaustive octets with hstart | ⟨taken, left, number, rfl, hnumber⟩ | hlong
  · rw [hclassifies.incomplete hstart] at hread
    cases hread
  · rw [hclassifies.complete hnumber] at hread
    cases hread
    exact ⟨taken, rfl, hnumber⟩
  · obtain ⟨left, hleft⟩ := hlong
    rw [hleft] at hread
    cases hread

theorem classifies_readContinuation :
    Classifies readContinuation IsContinuationStart IsContinuation :=
  ⟨readContinuation_of_start, readContinuation_of_whole, continuation_cases⟩

theorem classifies_read (width : Nat) :
    Classifies (read width) (IsStart width) (IsInteger width) where
  incomplete hstart := by
    cases hstart with
    | nothing => rfl
    | continued hfirst hoctets =>
      rw [read_cons_of_isSaturated hfirst, readContinuation_of_start hoctets]
      rfl
  complete hinteger rest := by
    cases hinteger with
    | low hfirst => exact read_cons_of_not_isSaturated hfirst rest
    | continued hfirst htaken =>
      rw [List.cons_append, read_cons_of_isSaturated hfirst, readContinuation_of_whole htaken]
      rfl
  exhaustive octets := by
    cases octets with
    | nil => exact .inl .nothing
    | cons first octets =>
      by_cases hfirst : IsSaturated width first
      · rcases continuation_cases octets with hstart | ⟨taken, rest, value, rfl, hwhole⟩ | hlong
        · exact .inl (.continued hfirst hstart)
        · exact .inr (.inl ⟨first :: taken, rest, _, rfl, .continued hfirst hwhole⟩)
        · obtain ⟨rest, hrest⟩ := hlong
          refine .inr (.inr ⟨rest, ?_⟩)
          rw [read_cons_of_isSaturated hfirst, hrest]
          rfl
      · exact .inr (.inl ⟨[first], octets, _, rfl, .low hfirst⟩)

theorem IsContinuation.lt {taken : Octets} {value : Nat} (hwhole : IsContinuation taken value) :
    value < continuationValues :=
  readContinuation_lt (readContinuation_of_whole hwhole [])

theorem IsInteger.lt {width : Nat} {taken : Octets} {value : Nat}
    (hinteger : IsInteger width taken value) : value < Bits.ones width + continuationValues := by
  cases hinteger with
  | @low first hfirst =>
    have hlow := Nat.mod_lt first.toNat (Bits.values_pos width)
    have hvalues : 0 < continuationValues := Bits.values_pos 31
    unfold Bits.ones
    omega
  | continued hfirst htaken => exact Nat.add_lt_add_left htaken.lt _

/-! ## Reading from a queue -/

/-- What becomes of a queue from which a number below `limit` is read. -/
structure IsReadAs (queue : Queue) (reader : Octets → Reading Nat) (Start : Octets → Prop)
    (Number : Octets → Nat → Prop) (limit : Nat) : Prop where
  /-- Nothing is taken until the number is whole. -/
  waits : Start queue.unread →
    (queue.read reader).1 = .ok none ∧ (queue.read reader).2.unread = queue.unread
  /-- Exactly the octets of the number are taken. -/
  reads (taken rest : Octets) (value : Nat) : queue.unread = taken ++ rest → Number taken value →
    value < limit ∧ (queue.read reader).1 = .ok (some value) ∧
      (queue.read reader).2.unread = rest
  overflows : ¬Start queue.unread →
    (¬∃ taken rest value, queue.unread = taken ++ rest ∧ Number taken value) →
      (queue.read reader).1 = .error .integerOverflow
  /-- Octets that arrive after a verdict do not change it. -/
  decided (more : Octets) : (queue.read reader).1 ≠ .ok none →
    ((queue.append more).read reader).1 = (queue.read reader).1
  /-- Reading again after each chunk comes to the same as reading the whole. -/
  retried (chunks : List Octets) :
    (queue.readArriving reader chunks).1 = ((queue.append chunks.flatten).read reader).1 ∧
      (queue.readArriving reader chunks).2.unread =
        ((queue.append chunks.flatten).read reader).2.unread

theorem Classifies.isReadAs {reader : Octets → Reading Nat} {Start : Octets → Prop}
    {Number : Octets → Nat → Prop} {limit : Nat} {queue : Queue}
    (hclassifies : Classifies reader Start Number) (hreader : Prefixwise reader)
    (hlimit : ∀ taken value, Number taken value → value < limit) (hordered : queue.IsOrdered) :
    IsReadAs queue reader Start Number limit := by
  obtain ⟨hverdict, hleft⟩ := Queue.read_eq_outcome hreader queue
  have happended := fun more ↦ Queue.read_eq_outcome hreader (queue.append more)
  constructor
  · intro hstart
    rw [hclassifies.incomplete hstart] at hverdict hleft
    exact ⟨hverdict, hleft⟩
  · intro taken rest value hunread hnumber
    rw [hunread, hclassifies.complete hnumber] at hverdict hleft
    exact ⟨hlimit taken value hnumber, hverdict, hleft⟩
  · intro hstart hnumber
    rcases hclassifies.exhaustive queue.unread with hwaits | hwhole | ⟨rest, hlong⟩
    · exact absurd hwaits hstart
    · exact absurd hwhole hnumber
    · rw [hlong] at hverdict
      exact hverdict
  · intro more hdecided
    obtain ⟨hmore, -⟩ := happended more
    rw [hverdict] at hdecided
    rw [hordered.unread_append, hreader.outcome_append hdecided] at hmore
    exact hmore.trans hverdict.symm
  · intro chunks
    obtain ⟨hwhole, hrest⟩ := happended chunks.flatten
    obtain ⟨harriving, hunread⟩ := Queue.readArriving_eq_outcome hreader hordered chunks
    rw [hordered.unread_append] at hwhole hrest
    exact ⟨harriving.trans hwhole.symm, hunread.trans hrest.symm⟩

/-- Whatever octets a queue holds, an integer that has not arrived as a whole is left there, a whole
one is read and is below its limit, and anything else is found too large; a verdict is final, and it
does not matter in which chunks the octets arrive. The same holds of a continuation on its own. As
long as the queue is short enough for its places to be words, this is how reading octet by octet
with words of 64 bits ends, in which no operation fails. -/
theorem any_octets_are_classified {width : Nat} (hpos : 0 < width) (hwidth : width ≤ 8)
    {queue : Queue} (hordered : queue.IsOrdered) :
    IsReadAs queue (read width) (IsStart width) (IsInteger width)
        (Bits.ones width + continuationValues) ∧
      IsReadAs queue readContinuation IsContinuationStart IsContinuation continuationValues ∧
      (queue.storage.size < Bits.values 60 →
        Checked.IntegerCoding.read width queue = some (queue.read (read width)) ∧
          Checked.Input.readContinuation queue = some (queue.read readContinuation)) := by
  refine ⟨?_, ?_, fun hsize ↦ ?_⟩
  · exact (classifies_read width).isReadAs (prefixwise_read width) (fun _ _ ↦ IsInteger.lt) hordered
  · exact classifies_readContinuation.isReadAs prefixwise_readContinuation
      (fun _ _ ↦ IsContinuation.lt) hordered
  · have horder : Checked.Input.InOrder queue := ⟨hordered.position_le, hsize⟩
    exact ⟨Checked.IntegerCoding.read_eq hpos hwidth horder,
      Checked.Input.readContinuation_eq horder⟩

/-- Four groups of zeros and then the largest fifth one, in three chunks. -/
theorem any_octets_are_classified_of_late_digit :
    let queue := Queue.ofOctets [0x1f, 0x80, 0x80]
    let chunks : List Octets := [[0x80], [], [0x80, 0x07, 0x82]]
    queue.IsOrdered ∧ (queue.read (read 5)).1 = .ok none ∧
      (queue.readArriving (read 5) chunks).1 = .ok (some 1879048223) ∧
      (queue.readArriving (read 5) chunks).2.unread = [0x82] := by
  intro queue chunks
  have hordered : queue.IsOrdered := Queue.isOrdered_ofOctets _
  have hwidth : 0 < 5 := by decide
  have hstart : IsStart 5 [0x1f, 0x80, 0x80] := .continued rfl ⟨by simp [GoesOn], by decide⟩
  have hclassified := any_octets_are_classified hwidth (by decide) hordered
  obtain ⟨hverdict, hunread⟩ := hclassified.1.retried chunks
  refine ⟨hordered, (hclassified.1.waits ?_).1, hverdict.trans ?_, hunread.trans ?_⟩
  · rwa [Queue.unread_ofOctets]
  · decide +kernel
  · decide +kernel

end HeaderCompression.Wire.PrefixedInteger
