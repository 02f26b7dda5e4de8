import HeaderCompression.Proofs.Checked.HuffmanDecoding

/-!
# Why decoding fails

The bits of a coded string are read as codewords of octets, one after the other, until none comes
next. There is one such reading, and what stands behind it settles the outcome: the codeword of the
end of a string, padding, or bits that are no padding. Every path through the code tree leads to a
symbol in the end, so nothing else can happen.
-/

namespace HeaderCompression.Huffman

/-! ## One codeword at a time -/

theorem eq_of_codeword_isPrefix_codeword {symbol other : CodeSymbol}
    (hpart : (codeword symbol).bits <+: (codeword other).bits) : symbol = other := by
  obtain ⟨rest, hrest⟩ := hpart
  have hfollow : (CodeTree.leaf symbol).follow rest = .leaf other := by
    rw [← follow_codeword symbol, ← CodeTree.follow_append, hrest, follow_codeword]
  cases rest with
  | nil => exact CodeTree.leaf.inj hfollow
  | cons bit rest => simp at hfollow

/-- No two codewords come first. -/
theorem eq_of_codewords_isPrefix {symbol other : CodeSymbol} {bits : Bits}
    (hsymbol : (codeword symbol).bits <+: bits) (hother : (codeword other).bits <+: bits) :
    symbol = other := by
  rcases List.prefix_or_prefix_of_prefix hsymbol hother with hpart | hpart
  · exact eq_of_codeword_isPrefix_codeword hpart
  · exact (eq_of_codeword_isPrefix_codeword hpart).symm

/-- Reading one codeword after the other from the first bit on comes to these octets, and the
codeword of no octet comes first in the rest. -/
structure IsParse (bits : Bits) (octets : Octets) (rest : Bits) : Prop where
  bits_eq : bits = codewordBits octets ++ rest
  ended (octet : UInt8) : ¬(codeword (.octet octet)).bits <+: rest

variable {bits rest left : Bits} {octets others : Octets}

theorem isParse_nil_iff :
    IsParse bits [] rest ↔ bits = rest ∧ ∀ octet, ¬(codeword (.octet octet)).bits <+: bits := by
  constructor
  · rintro ⟨rfl, hended⟩
    exact ⟨rfl, hended⟩
  · rintro ⟨rfl, hended⟩
    exact ⟨rfl, hended⟩

theorem isParse_cons_iff {octet : UInt8} :
    IsParse bits (octet :: octets) rest ↔
      ∃ following, bits = (codeword (.octet octet)).bits ++ following ∧
        IsParse following octets rest := by
  constructor
  · rintro ⟨rfl, hended⟩
    refine ⟨codewordBits octets ++ rest, ?_, rfl, hended⟩
    rw [codewordBits_cons, List.append_assoc]
  · rintro ⟨following, rfl, rfl, hended⟩
    refine ⟨?_, hended⟩
    rw [codewordBits_cons, List.append_assoc]

theorem exists_isParse (bits : Bits) : ∃ octets rest, IsParse bits octets rest := by
  induction hlength : bits.length using Nat.strongRecOn generalizing bits with
  | ind length hshorter =>
    by_cases hnext : ∃ octet, (codeword (.octet octet)).bits <+: bits
    · obtain ⟨octet, following, rfl⟩ := hnext
      have hpos := List.length_pos_iff.2 (bits_codeword_ne_nil (.octet octet))
      have hfewer : following.length < length := by
        rw [← hlength, List.length_append]
        omega
      obtain ⟨octets, rest, hparse⟩ := hshorter following.length hfewer following rfl
      exact ⟨octet :: octets, rest, isParse_cons_iff.2 ⟨following, rfl, hparse⟩⟩
    · exact ⟨[], bits, isParse_nil_iff.2 ⟨rfl, not_exists.1 hnext⟩⟩

theorem IsParse.unique (hparse : IsParse bits octets rest) (hother : IsParse bits others left) :
    others = octets ∧ left = rest := by
  induction octets generalizing bits others with
  | nil =>
    obtain ⟨rfl, hended⟩ := isParse_nil_iff.1 hparse
    cases others with
    | nil => exact ⟨rfl, (isParse_nil_iff.1 hother).1.symm⟩
    | cons other others =>
      obtain ⟨following, hfollowing, -⟩ := isParse_cons_iff.1 hother
      exact absurd ⟨following, hfollowing.symm⟩ (hended other)
  | cons octet octets hoctets =>
    obtain ⟨following, rfl, hfirst⟩ := isParse_cons_iff.1 hparse
    cases others with
    | nil =>
      have hended := (isParse_nil_iff.1 hother).2
      exact absurd ⟨following, rfl⟩ (hended octet)
    | cons other others =>
      obtain ⟨otherFollowing, hfollowing, hsecond⟩ := isParse_cons_iff.1 hother
      have hsymbol : CodeSymbol.octet octet = .octet other :=
        eq_of_codewords_isPrefix ⟨following, rfl⟩ ⟨otherFollowing, hfollowing.symm⟩
      obtain rfl := CodeSymbol.octet.inj hsymbol
      obtain rfl := List.append_cancel_left hfollowing
      obtain ⟨rfl, rfl⟩ := hoctets hfirst hsecond
      exact ⟨rfl, rfl⟩

/-! ## What comes after a parse -/

/-- Every path leads to a leaf or can be continued to one. -/
def CodeTree.isComplete : CodeTree → Bool
  | unassigned => false
  | leaf _ => true
  | branch zero one => zero.isComplete && one.isComplete

theorem CodeTree.exists_leaf_or_branch {tree : CodeTree} (hcomplete : tree.isComplete = true)
    (bits : Bits) :
    (∃ path symbol, path <+: bits ∧ tree.follow path = .leaf symbol) ∨
      ∃ zero one, tree.follow bits = .branch zero one := by
  induction bits generalizing tree with
  | nil =>
    cases tree with
    | unassigned => cases hcomplete
    | leaf symbol => exact .inl ⟨[], symbol, List.nil_prefix, rfl⟩
    | branch zero one => exact .inr ⟨zero, one, rfl⟩
  | cons bit bits hbits =>
    cases tree with
    | unassigned => cases hcomplete
    | leaf symbol => exact .inl ⟨[], symbol, List.nil_prefix, rfl⟩
    | branch zero one =>
      have hchild : ((branch zero one).child bit).isComplete = true := by
        have hboth := (Bool.and_eq_true _ _).mp hcomplete
        cases bit with
        | false => exact hboth.1
        | true => exact hboth.2
      rcases hbits hchild with ⟨path, symbol, hpath, hleaf⟩ | hbranch
      · exact .inl ⟨bit :: path, symbol, List.prefix_cons_inj bit |>.2 hpath, hleaf⟩
      · exact .inr hbranch

theorem isComplete_codeTree : codeTree.isComplete = true := by
  rw [codeTree_eq_foldl_codewords]
  decide +kernel

/-- If no codeword comes first, the bits lead to a branch of the code tree. -/
theorem exists_branch_of_ended
    (hended : ∀ symbol, ¬(codeword symbol).bits <+: bits) :
    ∃ zero one, codeTree.follow bits = .branch zero one := by
  rcases CodeTree.exists_leaf_or_branch isComplete_codeTree bits with
    ⟨path, symbol, hpath, hleaf⟩ | hbranch
  · rw [eq_bits_codeword_of_follow hleaf] at hpath
    exact absurd hpath (hended symbol)
  · exact hbranch

theorem isPadding_reverse (bits : Bits) : isPadding bits.reverse = isPadding bits := by
  simp [isPadding]

theorem isPadding_eq_false_iff : isPadding bits = false ↔ 8 ≤ bits.length ∨ false ∈ bits := by
  rw [isPadding, Bool.and_eq_false_iff, decide_eq_false_iff_not, Nat.not_lt, List.all_eq_false]
  simp

theorem decodeFrom_of_ended (hended : ∀ symbol, ¬(codeword symbol).bits <+: bits) :
    decodeFrom codeTree [] bits = if isPadding bits then .ok [] else .error .invalidPadding := by
  obtain ⟨zero, one, hbranch⟩ := exists_branch_of_ended hended
  calc
    decodeFrom codeTree [] bits = decodeFrom codeTree [] (bits ++ []) := by rw [List.append_nil]
    _ = decodeFrom (.branch zero one) (bits.reverse ++ []) [] :=
      Checked.HuffmanDecoding.decodeFrom_append_of_follow_branch hbranch [] []
    _ = if isPadding bits.reverse then .ok [] else .error .invalidPadding := by
      rw [List.append_nil, decodeFrom]
    _ = if isPadding bits then .ok [] else .error .invalidPadding := by rw [isPadding_reverse]

theorem decodeFrom_of_endOfString (hend : (codeword .endOfString).bits <+: bits) :
    decodeFrom codeTree [] bits = .error .endOfStringDecoded := by
  obtain ⟨rest, rfl⟩ := hend
  exact Checked.HuffmanDecoding.decodeFrom_append_of_follow_endOfString
    (follow_codeword .endOfString) (bits_codeword_ne_nil .endOfString) [] rest

namespace IsParse

variable {coded : Octets}

theorem decode_eq (hparse : IsParse (Octets.bits coded) octets rest) :
    decode coded = (decodeFrom codeTree [] rest).map (octets ++ ·) := by
  rw [decode, hparse.bits_eq, decodeFrom_codewordBits_append]

theorem decode_eq_of_endOfString (hparse : IsParse (Octets.bits coded) octets rest)
    (hend : (codeword .endOfString).bits <+: rest) :
    decode coded = .error .endOfStringDecoded := by
  rw [hparse.decode_eq, decodeFrom_of_endOfString hend]
  rfl

theorem decode_eq_of_no_symbol (hparse : IsParse (Octets.bits coded) octets rest)
    (hend : ¬(codeword .endOfString).bits <+: rest) :
    decode coded = if isPadding rest then .ok octets else .error .invalidPadding := by
  have hended : ∀ symbol, ¬(codeword symbol).bits <+: rest := by
    intro symbol
    cases symbol with
    | octet octet => exact hparse.ended octet
    | endOfString => exact hend
  rw [hparse.decode_eq, decodeFrom_of_ended hended]
  cases isPadding rest with
  | false => rfl
  | true => simp [Except.map]

end IsParse

/-! ## Outcomes -/

/-- There is one parse of a coded string, and what it leaves decides: decoding fails with the end of
a string exactly if its codeword comes next, and with invalid padding exactly if it does not and
eight bits or more are left or one that is no one. No other error occurs, also when the string is
decoded an octet at a time along the trie of the codebook. -/
theorem decode_classified_by_parse (coded : Octets) :
    ∃ octets rest,
      (∀ others left,
        IsParse (Octets.bits coded) others left ↔ others = octets ∧ left = rest) ∧
      (decode coded = .error .endOfStringDecoded ↔ (codeword .endOfString).bits <+: rest) ∧
      (decode coded = .error .invalidPadding ↔
        ¬(codeword .endOfString).bits <+: rest ∧ (8 ≤ rest.length ∨ false ∈ rest)) ∧
      (decode coded = .ok octets ↔
        ¬(codeword .endOfString).bits <+: rest ∧ ¬(8 ≤ rest.length ∨ false ∈ rest)) ∧
      decode coded ≠ .error .unassignedCodeword ∧
      ∃ trie, Checked.CodeTrie.build = some trie ∧
        Checked.HuffmanDecoding.decodeFrom trie coded { } = some (decode coded) := by
  obtain ⟨octets, rest, hparse⟩ := exists_isParse (Octets.bits coded)
  have hunique : ∀ others left,
      IsParse (Octets.bits coded) others left ↔ others = octets ∧ left = rest := by
    intro others left
    constructor
    · exact hparse.unique
    · rintro ⟨rfl, rfl⟩
      exact hparse
  obtain ⟨trie, hbuild, hroot⟩ := Checked.CodeTrie.exists_build
  have hwalk : Checked.HuffmanDecoding.decodeFrom trie coded { } = some (decode coded) :=
    Checked.HuffmanDecoding.decodeFrom_root_eq hroot coded
  refine ⟨octets, rest, hunique, ?_⟩
  rw [← isPadding_eq_false_iff]
  by_cases hend : (codeword .endOfString).bits <+: rest
  · have hdecode := hparse.decode_eq_of_endOfString hend
    refine ⟨?_, ?_, ?_, ?_, trie, hbuild, hwalk⟩
    · simp [hdecode, hend]
    · simp [hdecode, hend]
    · simp [hdecode, hend]
    · simp [hdecode]
  · have hdecode := hparse.decode_eq_of_no_symbol hend
    cases hpadding : isPadding rest with
    | false =>
      rw [hpadding, if_neg Bool.false_ne_true] at hdecode
      refine ⟨?_, ?_, ?_, ?_, trie, hbuild, hwalk⟩
      · simp [hdecode, hend]
      · simp [hdecode, hend]
      · simp [hdecode]
      · simp [hdecode]
    | true =>
      rw [hpadding, if_pos rfl] at hdecode
      refine ⟨?_, ?_, ?_, ?_, trie, hbuild, hwalk⟩
      · simp [hdecode, hend]
      · simp [hdecode]
      · simp [hdecode, hend]
      · simp [hdecode]

end HeaderCompression.Huffman
