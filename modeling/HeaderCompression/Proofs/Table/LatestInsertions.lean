import Std.Data.TreeMap
import Std.Data.TreeMap.Lemmas

/-!
# Numbers of latest insertions

A search tree tracks a list of entries, newest first, if it maps each key to the number of the
latest insertion of an entry with that key. Insertions are numbered from zero, and entries leave in
the order of their numbers, so the entry of age `age` has number `inserted - (age + 1)`.
-/

namespace HeaderCompression.Table

variable {ε κ : Type} [DecidableEq κ] [Ord κ] {latest : Std.TreeMap κ Nat} {key : ε → κ}
  {entries : List ε} {inserted : Nat}

/-- The age of the newest entry with a key. -/
def newestAge? (key : ε → κ) (entries : List ε) (wanted : κ) : Option Nat :=
  entries.findIdx? fun entry ↦ key entry = wanted

def Tracks (latest : Std.TreeMap κ Nat) (key : ε → κ) (entries : List ε) (inserted : Nat) : Prop :=
  ∀ wanted, latest[wanted]? = (newestAge? key entries wanted).map fun age ↦ inserted - (age + 1)

/-! ## Ages -/

omit [Ord κ] in
theorem newestAge?_cons (entry : ε) (wanted : κ) :
    newestAge? key (entry :: entries) wanted =
      if key entry = wanted then some 0 else (newestAge? key entries wanted).map (· + 1) := by
  simp [newestAge?, List.findIdx?_cons]

omit [Ord κ] in
theorem newestAge?_append_oldest (oldest : ε) (wanted : κ) :
    newestAge? key (entries ++ [oldest]) wanted =
      (newestAge? key entries wanted).or
        (if key oldest = wanted then some entries.length else none) := by
  by_cases hkey : key oldest = wanted <;> simp [newestAge?, List.findIdx?_append, hkey]

omit [Ord κ] in
theorem exists_getElem?_of_newestAge? {wanted : κ} {age : Nat}
    (hage : newestAge? key entries wanted = some age) :
    ∃ entry, entries[age]? = some entry ∧ key entry = wanted := by
  obtain ⟨hlength, hkey, -⟩ := List.findIdx?_eq_some_iff_getElem.1 hage
  exact ⟨entries[age], List.getElem?_eq_getElem hlength, of_decide_eq_true hkey⟩

omit [Ord κ] in
theorem lt_length_of_newestAge? {wanted : κ} {age : Nat}
    (hage : newestAge? key entries wanted = some age) : age < entries.length := by
  obtain ⟨entry, hentry, -⟩ := exists_getElem?_of_newestAge? hage
  exact (List.getElem?_eq_some_iff.1 hentry).1

omit [Ord κ] in
/-- The newest entry with a key is the first of those that have it. -/
theorem newestAge?_eq_some_iff {wanted : κ} {age : Nat} :
    newestAge? key entries wanted = some age ↔
      (∃ entry, entries[age]? = some entry ∧ key entry = wanted) ∧
        ∀ other entry, entries[other]? = some entry → key entry = wanted → age ≤ other := by
  constructor
  · intro hage
    refine ⟨exists_getElem?_of_newestAge? hage, fun other entry hentry hkey ↦ ?_⟩
    obtain ⟨hlength, -, hearlier⟩ := List.findIdx?_eq_some_iff_getElem.1 hage
    obtain ⟨hother, rfl⟩ := List.getElem?_eq_some_iff.1 hentry
    apply Nat.le_of_not_lt
    intro hlt
    exact hearlier other hlt (decide_eq_true hkey)
  · rintro ⟨⟨entry, hentry, hkey⟩, hleast⟩
    obtain ⟨hage, rfl⟩ := List.getElem?_eq_some_iff.1 hentry
    apply List.findIdx?_eq_some_iff_getElem.2
    refine ⟨hage, decide_eq_true hkey, fun other hother hfound ↦ ?_⟩
    have hentry := List.getElem?_eq_getElem (Nat.lt_trans hother hage)
    exact Nat.not_le_of_lt hother (hleast other _ hentry (of_decide_eq_true hfound))

omit [Ord κ] in
theorem newestAge?_eq_none_iff {wanted : κ} :
    newestAge? key entries wanted = none ↔ ∀ entry ∈ entries, key entry ≠ wanted := by
  simp [newestAge?, List.findIdx?_eq_none_iff]

/-! ## Operations -/

variable [Std.TransOrd κ]

theorem tracks_empty (key : ε → κ) (inserted : Nat) : Tracks ∅ key [] inserted := by
  intro wanted
  rw [Std.TreeMap.getElem?_emptyc]
  rfl

variable [Std.LawfulEqOrd κ]

theorem getElem?_insert {ν : Type} (tree : Std.TreeMap κ ν) (added wanted : κ) (value : ν) :
    (tree.insert added value)[wanted]? = if added = wanted then some value else tree[wanted]? := by
  rw [Std.TreeMap.getElem?_insert]
  simp only [Std.LawfulEqCmp.compare_eq_iff_eq]

theorem getElem?_erase {ν : Type} (tree : Std.TreeMap κ ν) (leaving wanted : κ) :
    (tree.erase leaving)[wanted]? = if leaving = wanted then none else tree[wanted]? := by
  rw [Std.TreeMap.getElem?_erase]
  simp only [Std.LawfulEqCmp.compare_eq_iff_eq]

theorem Tracks.insert (htracks : Tracks latest key entries inserted) (entry : ε) :
    Tracks (latest.insert (key entry) inserted) key (entry :: entries) (inserted + 1) := by
  intro wanted
  rw [getElem?_insert, newestAge?_cons, htracks wanted]
  by_cases hkey : key entry = wanted
  · rw [if_pos hkey, if_pos hkey]
    rfl
  · rw [if_neg hkey, if_neg hkey, Option.map_map]
    congr 1
    funext age
    exact (Nat.add_sub_add_right inserted 1 (age + 1)).symm

/-- A number is forgotten only under its own key, and only if it is still the one noted there. -/
theorem getElem?_erase_of_eq (latest : Std.TreeMap κ Nat) (leaving wanted : κ) (number : Nat) :
    (if latest[leaving]? = some number then latest.erase leaving else latest)[wanted]? =
      if leaving = wanted ∧ latest[leaving]? = some number then none else latest[wanted]? := by
  by_cases hnumber : latest[leaving]? = some number
  · simp only [hnumber, if_true, and_true, getElem?_erase]
  · rw [if_neg hnumber, if_neg fun hboth ↦ hnumber hboth.2]

/-- The number of the oldest entry is in the tree only if no newer entry has the same key. -/
theorem Tracks.forget {oldest : ε} (htracks : Tracks latest key (entries ++ [oldest]) inserted)
    (hinserted : entries.length < inserted) :
    Tracks
      (if latest[key oldest]? = some (inserted - (entries.length + 1)) then
        latest.erase (key oldest) else latest) key entries inserted := by
  intro wanted
  have hlookup := htracks wanted
  rw [newestAge?_append_oldest] at hlookup
  rw [getElem?_erase_of_eq]
  by_cases hkey : key oldest = wanted
  · subst hkey
    rw [if_pos rfl] at hlookup
    cases hage : newestAge? key entries (key oldest) with
    | none =>
      rw [hage, Option.none_or, Option.map_some] at hlookup
      rw [if_pos ⟨rfl, hlookup⟩, Option.map_none]
    | some age =>
      have hlength := lt_length_of_newestAge? hage
      rw [hage, Option.some_or, Option.map_some] at hlookup
      have hnewer : ¬latest[key oldest]? = some (inserted - (entries.length + 1)) := by
        rw [hlookup, Option.some.injEq]
        omega
      rw [if_neg fun hboth ↦ hnewer hboth.2, hlookup, Option.map_some]
  · rw [if_neg hkey, Option.or_none] at hlookup
    rw [if_neg fun hboth ↦ hkey hboth.1, hlookup]

/-- An oldest entry that is the newest with its key is the only one with it. -/
theorem Tracks.key_ne_of_latest {oldest : ε} (htracks : Tracks latest key (entries ++ [oldest]) inserted)
    (hinserted : entries.length < inserted)
    (hlatest : latest[key oldest]? = some (inserted - (entries.length + 1))) :
    ∀ entry ∈ entries, key entry ≠ key oldest := by
  have hlookup := htracks.forget hinserted (key oldest)
  rw [getElem?_erase_of_eq, if_pos ⟨rfl, hlatest⟩] at hlookup
  exact newestAge?_eq_none_iff.1 (Option.map_eq_none_iff.1 hlookup.symm)

end HeaderCompression.Table
