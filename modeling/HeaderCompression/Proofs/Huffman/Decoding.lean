import HeaderCompression.Huffman.Coding
import HeaderCompression.Proofs.Huffman.CodeTree

/-!
# What decoding accepts

Decoding accepts exactly the bit strings that are the codewords of some octets followed by padding,
and yields those octets. The two directions are inductions along the walk through the code tree: a
walk along a codeword ends at the leaf of its octet, and a walk that has not ended stands at the
node that its bits lead to.
-/

namespace HeaderCompression.Huffman

/-- The codewords of the octets one after the other. -/
def codewordBits (octets : Octets) : Bits :=
  octets.flatMap fun octet ↦ (codeword (.octet octet)).bits

@[simp]
theorem codewordBits_nil : codewordBits [] = [] := rfl

@[simp]
theorem codewordBits_cons (octet : UInt8) (octets : Octets) :
    codewordBits (octet :: octets) = (codeword (.octet octet)).bits ++ codewordBits octets := rfl

theorem length_codewordBits (octets : Octets) :
    (codewordBits octets).length = encodedBits octets := by
  induction octets with
  | nil => rfl
  | cons octet octets hoctets =>
    rw [codewordBits_cons, List.length_append, hoctets, length_bits_codeword, encodedBits]

theorem encodedBits_bounds (octets : Octets) :
    5 * octets.length ≤ encodedBits octets ∧ encodedBits octets ≤ 30 * octets.length := by
  induction octets with
  | nil => exact ⟨Nat.le_refl 0, Nat.le_refl 0⟩
  | cons octet octets hoctets =>
    have hword := codeword_length_bounds (.octet octet)
    rw [encodedBits, List.length_cons]
    omega

/-! ## Padding -/

theorem isPadding_iff {bits : Bits} :
    isPadding bits = true ↔ bits.length < 8 ∧ bits = List.replicate bits.length true := by
  rw [isPadding, Bool.and_eq_true, decide_eq_true_iff, List.all_eq_true, List.eq_replicate_iff]
  simp

/-! ## Walks -/

/-- A walk along a path to a leaf delivers the octet there and starts again at the root. -/
theorem decodeFrom_append_of_follow {node : CodeTree} {path : Bits} {octet : UInt8}
    (hpath : node.follow path = .leaf (.octet octet)) (hne : path ≠ []) (pending rest : Bits) :
    decodeFrom node pending (path ++ rest) = (decodeFrom codeTree [] rest).map (octet :: ·) := by
  induction path generalizing node pending with
  | nil => exact absurd rfl hne
  | cons bit path hwalk =>
    rw [List.cons_append, decodeFrom]
    rw [CodeTree.follow] at hpath
    cases path with
    | nil =>
      rw [CodeTree.follow] at hpath
      rw [hpath, List.nil_append]
    | cons next path =>
      cases hchild : node.child bit with
      | unassigned => simp [hchild] at hpath
      | leaf symbol => simp [hchild] at hpath
      | branch zero one =>
        rw [hchild] at hpath
        exact hwalk hpath (List.cons_ne_nil next path) (bit :: pending)

/-- A walk that stops short of a leaf has only padding behind it, or fails. -/
theorem decodeFrom_of_follow_append {node : CodeTree} {path others : Bits} {symbol : CodeSymbol}
    (hpath : node.follow (path ++ others) = .leaf symbol) (hne : others ≠ []) (pending : Bits) :
    decodeFrom node pending path =
      if isPadding (path.reverse ++ pending) then .ok [] else .error .invalidPadding := by
  induction path generalizing node pending with
  | nil => rw [decodeFrom, List.reverse_nil, List.nil_append]
  | cons bit path hwalk =>
    obtain ⟨next, tail, htail⟩ := List.exists_cons_of_ne_nil
      (List.append_ne_nil_of_right_ne_nil path hne)
    rw [List.cons_append, CodeTree.follow] at hpath
    rw [decodeFrom]
    cases hchild : node.child bit with
    | unassigned => simp [hchild] at hpath
    | leaf found => simp [hchild, htail] at hpath
    | branch zero one =>
      rw [hchild] at hpath
      rw [List.reverse_cons, List.append_assoc, List.singleton_append]
      exact hwalk hpath (bit :: pending)

/-- Padding leads along the codeword of the end of a string, but not to its end. -/
theorem decodeFrom_padding {bits : Bits} (hpadding : isPadding bits = true) :
    decodeFrom codeTree [] bits = .ok [] := by
  obtain ⟨hlength, hones⟩ := isPadding_iff.1 hpadding
  have hword : (codeword .endOfString).bits = List.replicate 30 true := by decide +kernel
  have hpath : codeTree.follow (bits ++ List.replicate (30 - bits.length) true) =
      .leaf .endOfString := by
    rw [← follow_codeword, hword]
    congr 1
    calc
      bits ++ List.replicate (30 - bits.length) true =
          List.replicate bits.length true ++ List.replicate (30 - bits.length) true := by
        rw [← hones]
      _ = List.replicate 30 true := by
        rw [List.replicate_append_replicate]
        congr 1
        omega
  have hothers : List.replicate (30 - bits.length) true ≠ [] := by
    rw [Ne, List.replicate_eq_nil_iff]
    omega
  have hreverse : bits.reverse = bits := by
    rw [hones, List.reverse_replicate]
  rw [decodeFrom_of_follow_append hpath hothers, List.append_nil, hreverse, if_pos hpadding]

theorem decodeFrom_codewordBits_append (octets : Octets) (rest : Bits) :
    decodeFrom codeTree [] (codewordBits octets ++ rest) =
      (decodeFrom codeTree [] rest).map (octets ++ ·) := by
  induction octets with
  | nil => cases h : decodeFrom codeTree [] rest <;> simp [h, Except.map]
  | cons octet octets hoctets =>
    have hword := decodeFrom_append_of_follow (follow_codeword (.octet octet))
      (bits_codeword_ne_nil (.octet octet)) [] (codewordBits octets ++ rest)
    rw [codewordBits_cons, List.append_assoc, hword, hoctets]
    cases decodeFrom codeTree [] rest <;> rfl

/-- The pending bits, read backwards, lead from the root to the node of the walk. -/
theorem exists_padding_of_decodeFrom {node : CodeTree} {pending bits : Bits} {octets : Octets}
    (hnode : node = codeTree.follow pending.reverse)
    (hdecode : decodeFrom node pending bits = .ok octets) :
    ∃ padding, isPadding padding = true ∧
      pending.reverse ++ bits = codewordBits octets ++ padding := by
  fun_induction decodeFrom node pending bits generalizing octets with
  | case1 node pending hpadding =>
    obtain rfl : [] = octets := Except.ok.inj hdecode
    refine ⟨pending.reverse, ?_, ?_⟩
    · simpa [isPadding] using hpadding
    · rw [List.append_nil, codewordBits_nil, List.nil_append]
  | case2 node pending hpadding => cases hdecode
  | case3 node pending bit rest octet hleaf hrest =>
    cases hothers : decodeFrom codeTree [] rest with
    | error error => simp [hothers, Except.map] at hdecode
    | ok others =>
      rw [hothers] at hdecode
      obtain rfl : octet :: others = octets := Except.ok.inj hdecode
      obtain ⟨padding, hpadding, hbits⟩ := hrest rfl hothers
      have hpath : codeTree.follow (pending.reverse ++ [bit]) = .leaf (.octet octet) := by
        rw [CodeTree.follow_append, ← hnode]
        exact hleaf
      refine ⟨padding, hpadding, ?_⟩
      rw [codewordBits_cons, List.append_assoc, ← hbits, ← eq_bits_codeword_of_follow hpath]
      simp
  | case4 node pending bit rest hleaf => cases hdecode
  | case5 node pending bit rest zero one hbranch hrest =>
    have hchild : CodeTree.branch zero one = codeTree.follow (bit :: pending).reverse := by
      rw [List.reverse_cons, CodeTree.follow_append, ← hnode]
      exact hbranch.symm
    obtain ⟨padding, hpadding, hbits⟩ := hrest hchild hdecode
    exact ⟨padding, hpadding, by simpa using hbits⟩
  | case6 node pending bit rest hunassigned => cases hdecode

/-! ## Acceptance -/

theorem decodeFrom_eq_ok_iff {bits : Bits} {octets : Octets} :
    decodeFrom codeTree [] bits = .ok octets ↔
      ∃ padding, isPadding padding = true ∧ bits = codewordBits octets ++ padding := by
  constructor
  · intro hdecode
    have hroot : codeTree = codeTree.follow ([] : Bits).reverse := by
      rw [List.reverse_nil, CodeTree.follow]
    simpa only [List.reverse_nil, List.nil_append] using exists_padding_of_decodeFrom hroot hdecode
  · rintro ⟨padding, hpadding, rfl⟩
    rw [decodeFrom_codewordBits_append, decodeFrom_padding hpadding, Except.map, List.append_nil]

theorem decode_eq_ok_iff {coded octets : Octets} :
    decode coded = .ok octets ↔
      ∃ padding, isPadding padding = true ∧ Octets.bits coded = codewordBits octets ++ padding :=
  decodeFrom_eq_ok_iff

/-! ## Lengths -/

/-- Codewords have 5 to 30 bits and fewer than eight bits follow the last one, so the length of a
coded string leaves only these lengths to the string. -/
theorem length_bounds_of_decode {coded octets : Octets} (hdecode : decode coded = .ok octets) :
    5 * octets.length ≤ 8 * coded.length ∧ 8 * coded.length ≤ 30 * octets.length + 7 := by
  obtain ⟨padding, hpadding, hbits⟩ := decode_eq_ok_iff.1 hdecode
  have hshort := (isPadding_iff.1 hpadding).1
  have hbounds := encodedBits_bounds octets
  have hlength : 8 * coded.length = encodedBits octets + padding.length := by
    rw [← Octets.bits_length, hbits, List.length_append, length_codewordBits]
  omega

/-- Eight bits are too many for padding alone. -/
theorem ne_nil_of_decode {coded octets : Octets} (hdecode : decode coded = .ok octets)
    (hne : coded ≠ []) : octets ≠ [] := by
  rintro rfl
  have hlength := (length_bounds_of_decode hdecode).2
  have hpos := List.length_pos_iff.2 hne
  rw [List.length_nil] at hlength
  omega

end HeaderCompression.Huffman
