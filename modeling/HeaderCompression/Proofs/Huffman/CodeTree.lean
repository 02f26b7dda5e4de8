import HeaderCompression.Huffman.CodeTree

/-!
# Paths of the code tree

Every codeword leads from the root of the code tree to its own symbol, and no other path leads to a
symbol. The first fact is read off the finished tree, the second holds of every tree that is grown
by insertions; everything else about the prefix code follows from them and from the lengths of the
codewords.
-/

namespace HeaderCompression.Huffman

/-! ## Symbols and their codewords -/

theorem CodeSymbol.mem_all (symbol : CodeSymbol) : symbol ∈ CodeSymbol.all := by
  unfold CodeSymbol.all
  cases symbol with
  | octet value =>
    apply List.mem_append_left
    exact List.mem_map.2 ⟨value.toNat, List.mem_range.2 value.toNat_lt, by rw [UInt8.ofNat_toNat]⟩
  | endOfString => exact List.mem_append_right _ (List.mem_singleton.2 rfl)

theorem CodeSymbol.length_all : CodeSymbol.all.length = 257 := by
  simp [CodeSymbol.all]

theorem CodeSymbol.place_all {index : Nat} (hindex : index < CodeSymbol.all.length) :
    CodeSymbol.all[index].place = index := by
  have hlength := CodeSymbol.length_all
  unfold CodeSymbol.all at hindex hlength ⊢
  by_cases hoctet : index < 256
  · have hleft : index < ((List.range 256).map fun value ↦
        CodeSymbol.octet (UInt8.ofNat value)).length := by simpa using hoctet
    rw [List.getElem_append_left hleft, List.getElem_map, List.getElem_range, CodeSymbol.place,
      UInt8.toNat_ofNat']
    exact Nat.mod_eq_of_lt hoctet
  · obtain rfl : index = 256 := by omega
    rfl

theorem map_codeword_all : CodeSymbol.all.map codeword = codebook.toList := by
  apply List.ext_getElem
  · rw [List.length_map, CodeSymbol.length_all]
    exact codebook_size.symm
  · intro index hmapped hcodeword
    have hsymbol : index < CodeSymbol.all.length := by simpa using hmapped
    have hplace := CodeSymbol.place_all hsymbol
    simp only [List.getElem_map, codeword, hplace, Array.getElem_toList]

/-- The codebook as a list of pairs, which is faster to walk through than to look up. -/
def codewords : List (CodeSymbol × Codeword) :=
  CodeSymbol.all.zip codebook.toList

theorem codewords_eq_map :
    codewords = CodeSymbol.all.map fun symbol ↦ (symbol, codeword symbol) := by
  rw [codewords, ← map_codeword_all, List.map_prod_left_eq_zip]

theorem mem_codewords (symbol : CodeSymbol) : (symbol, codeword symbol) ∈ codewords := by
  rw [codewords_eq_map]
  exact List.mem_map.2 ⟨symbol, symbol.mem_all, rfl⟩

theorem eq_codeword_of_mem {symbol : CodeSymbol} {word : Codeword}
    (hmem : (symbol, word) ∈ codewords) : word = codeword symbol := by
  rw [codewords_eq_map] at hmem
  obtain ⟨other, -, hpair⟩ := List.mem_map.1 hmem
  obtain ⟨rfl, hword⟩ := Prod.mk.inj hpair
  exact hword.symm

theorem codeword_length_bounds (symbol : CodeSymbol) :
    5 ≤ (codeword symbol).length ∧ (codeword symbol).length ≤ 30 := by
  have hall : ∀ pair ∈ codewords, 5 ≤ pair.2.length ∧ pair.2.length ≤ 30 := by decide +kernel
  exact hall (symbol, codeword symbol) (mem_codewords symbol)

@[simp]
theorem length_bits_codeword (symbol : CodeSymbol) :
    (codeword symbol).bits.length = (codeword symbol).length :=
  Bits.ofNat_length (codeword symbol).length (codeword symbol).value

theorem bits_codeword_ne_nil (symbol : CodeSymbol) : (codeword symbol).bits ≠ [] := by
  have hlength := (codeword_length_bounds symbol).1
  rw [← length_bits_codeword] at hlength
  exact List.ne_nil_of_length_pos (by omega)

/-! ## Paths -/

namespace CodeTree

/-- The subtree at the end of a path. -/
def follow (tree : CodeTree) : Bits → CodeTree
  | [] => tree
  | bit :: path => (tree.child bit).follow path

theorem follow_append (tree : CodeTree) (path others : Bits) :
    tree.follow (path ++ others) = (tree.follow path).follow others := by
  induction path generalizing tree with
  | nil => rfl
  | cons bit path hpath => exact hpath (tree.child bit)

@[simp]
theorem follow_unassigned (path : Bits) : unassigned.follow path = unassigned := by
  induction path with
  | nil => rfl
  | cons bit path hpath =>
    have hchild : unassigned.child bit = unassigned := by cases bit <;> rfl
    rw [follow, hchild, hpath]

@[simp]
theorem follow_leaf_cons (symbol : CodeSymbol) (bit : Bool) (path : Bits) :
    (leaf symbol).follow (bit :: path) = unassigned := by
  have hchild : (leaf symbol).child bit = unassigned := by cases bit <;> rfl
  rw [follow, hchild, follow_unassigned]

/-- An insertion makes a leaf at the end of its path and at no other place. -/
theorem follow_insert_eq_leaf {tree : CodeTree} {path target : Bits} {symbol found : CodeSymbol}
    (hfollow : (tree.insert symbol path).follow target = leaf found) :
    target = path ∧ found = symbol ∨ tree.follow target = leaf found := by
  induction path generalizing tree target with
  | nil =>
    cases target with
    | nil => exact .inl ⟨rfl, (leaf.inj hfollow).symm⟩
    | cons bit target => simp [insert] at hfollow
  | cons step path hpath =>
    cases target with
    | nil => cases step <;> simp [insert, follow] at hfollow
    | cons bit target =>
      have hbranches : ∀ bit, tree.child bit = if bit then tree.branches.2 else tree.branches.1 :=
        fun bit ↦ rfl
      -- Below the first bit either nothing has changed or the rest of the path was inserted.
      by_cases hbit : bit = step
      · subst hbit
        have hinserted : ((tree.child bit).insert symbol path).follow target = leaf found := by
          cases bit <;> exact hfollow
        rcases hpath hinserted with ⟨rfl, rfl⟩ | hchild
        · exact .inl ⟨rfl, rfl⟩
        · exact .inr hchild
      · right
        cases bit <;> cases step <;> first | exact hfollow | exact absurd rfl hbit

end CodeTree

/-! ## The code tree -/

theorem codeTree_eq_foldl_codewords :
    codeTree = codewords.foldl (fun tree pair ↦ tree.insert pair.1 pair.2.bits) .unassigned := by
  rw [codewords_eq_map, List.foldl_map]
  rfl

theorem follow_codeword (symbol : CodeSymbol) :
    codeTree.follow (codeword symbol).bits = .leaf symbol := by
  have hall : ∀ pair ∈ codewords,
      (codewords.foldl (fun tree pair ↦ tree.insert pair.1 pair.2.bits)
        CodeTree.unassigned).follow pair.2.bits = .leaf pair.1 := by decide +kernel
  rw [codeTree_eq_foldl_codewords]
  exact hall (symbol, codeword symbol) (mem_codewords symbol)

theorem mem_of_follow_foldl {pairs : List (CodeSymbol × Codeword)} {tree : CodeTree} {path : Bits}
    {symbol : CodeSymbol}
    (hpath : (pairs.foldl (fun tree pair ↦ tree.insert pair.1 pair.2.bits) tree).follow path =
      .leaf symbol) :
    (∃ word, (symbol, word) ∈ pairs ∧ path = word.bits) ∨ tree.follow path = .leaf symbol := by
  induction pairs generalizing tree with
  | nil => exact .inr hpath
  | cons pair pairs hpairs =>
    rcases hpairs hpath with ⟨word, hmem, hword⟩ | hinserted
    · exact .inl ⟨word, List.mem_cons_of_mem pair hmem, hword⟩
    · rcases CodeTree.follow_insert_eq_leaf hinserted with ⟨hword, rfl⟩ | htree
      · exact .inl ⟨pair.2, List.mem_cons_self, hword⟩
      · exact .inr htree

theorem eq_bits_codeword_of_follow {path : Bits} {symbol : CodeSymbol}
    (hpath : codeTree.follow path = .leaf symbol) : path = (codeword symbol).bits := by
  rw [codeTree_eq_foldl_codewords] at hpath
  rcases mem_of_follow_foldl hpath with ⟨word, hmem, hword⟩ | hunassigned
  · rw [hword, eq_codeword_of_mem hmem]
  · simp at hunassigned

end HeaderCompression.Huffman
