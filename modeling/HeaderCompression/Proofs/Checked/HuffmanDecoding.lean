import HeaderCompression.Proofs.Checked.CodeTrie
import HeaderCompression.Proofs.Huffman.Decoding
import HeaderCompression.Proofs.Octets.Bits

/-!
# Checked decoding of coded strings

Coded strings are decoded octet by octet. The octets are shifted into a word, of which fewer than
sixteen bits wait to be decoded. As long as there are eight of them, they choose a child of a node
of the code trie; at the end of the string the bits that remain are filled up with zeros to choose
one. A walk stands for the same walk through the code tree, and so does every step of it.
-/

namespace HeaderCompression.Checked.HuffmanDecoding

open HeaderCompression.Huffman CodeTrie

/-! ## Walks through the trie -/

/-- The `bits` low bits of `current` wait to be decoded at a node of the trie. -/
structure Walk where
  place : Nat := root
  current : Nat := 0
  bits : Nat := 0
  decoded : Octets := []

/-- The child of a node, which must exist. -/
def childOf (trie : Trie) (place octet : Nat) : Option (Except DecodingError Nat) := do
  match ← trie[place]? with
  | .inner children =>
    let child ← children[octet]?
    return if child = root then .error .unassignedCodeword else .ok child
  | .terminal _ _ => return .error .unassignedCodeword

/-- Decode while there are eight bits. Each round takes bits, and after `rounds` of them there is no
result. -/
def drain (trie : Trie) : (rounds : Nat) → Walk → Option (Except DecodingError Walk)
  | 0, _ => none
  | rounds + 1, walk =>
    if walk.bits < 8 then some (.ok walk)
    else do
      let excess ← difference walk.bits 8
      let shifted ← shiftRight 32 walk.current excess
      match ← childOf trie walk.place (shifted % 256) with
      | .error error => return .error error
      | .ok child =>
        match ← trie[child]? with
        | .terminal .endOfString _ => return .error .endOfStringDecoded
        | .terminal (.octet octet) depth =>
          let bits ← difference walk.bits depth
          drain trie rounds
            { walk with place := root, bits, decoded := walk.decoded ++ [octet] }
        | .inner _ => drain trie rounds { walk with place := child, bits := excess }

/-- Check what is left at the end of a string. -/
def finish (walk : Walk) : Option (Except DecodingError Octets) :=
  if walk.place ≠ root then some (.error .invalidPadding)
  else do
    let next ← shiftLeft 32 1 walk.bits
    let ones ← difference next 1
    return if walk.current &&& ones ≠ ones then .error .invalidPadding else .ok walk.decoded

/-- Decode the bits that are left at the end of a string. -/
def settle (trie : Trie) : (rounds : Nat) → Walk → Option (Except DecodingError Octets)
  | 0, _ => none
  | rounds + 1, walk =>
    if walk.bits = 0 then finish walk
    else do
      let missing ← difference 8 walk.bits
      let shifted ← shiftLeft 32 walk.current missing
      match ← childOf trie walk.place (shifted % 256) with
      | .error error => return .error error
      | .ok child =>
        match ← trie[child]? with
        | .terminal symbol depth =>
          if walk.bits < depth then finish walk
          else
            match symbol with
            | .endOfString => return .error .endOfStringDecoded
            | .octet octet =>
              let bits ← difference walk.bits depth
              settle trie rounds
                { walk with place := root, bits, decoded := walk.decoded ++ [octet] }
        | .inner _ => finish walk

def decodeFrom (trie : Trie) : Octets → Walk → Option (Except DecodingError Octets)
  | [], walk => settle trie (walk.bits + 1) walk
  | octet :: octets, walk => do
    let shifted ← shiftLeft 32 walk.current 8
    let bits ← sum largestShort walk.bits 8
    match ← drain trie (bits + 1) { walk with current := shifted ||| octet.toNat, bits } with
    | .error error => return .error error
    | .ok walk => decodeFrom trie octets walk

/-- Decode a string. The room that its octets may need is estimated first. -/
def decode (octets : Octets) : Option (Except DecodingError Octets) := do
  let trie ← build
  let bits ← product Size.largest octets.length 8
  let _ ← quotient bits 5
  decodeFrom trie octets { }

/-! ## Walks through the tree -/

/-- The bits that wait. -/
def Walk.unread (walk : Walk) : Bits :=
  Bits.ofNat walk.bits walk.current

/-- What a walk decodes in the end, when it stands at a node of the code tree where `pending` bits
have led, and when more bits follow. -/
def Walk.outcome (walk : Walk) (tree : CodeTree) (pending following : Bits) :
    Except DecodingError Octets :=
  (Huffman.decodeFrom tree pending (walk.unread ++ following)).map (walk.decoded ++ ·)

/-- A walk stands at a node of the code tree. Below the root, eight bits or more have led there. -/
structure Walk.At (trie : Trie) (walk : Walk) (tree : CodeTree) (pending : Bits) : Prop where
  represents : Represents trie walk.place tree
  root : walk.place = root → tree = codeTree ∧ pending = []
  below : walk.place ≠ CodeTrie.root → 8 ≤ pending.length

variable {trie : Trie} {walk : Walk} {tree : CodeTree} {pending : Bits}

theorem length_unread (walk : Walk) : walk.unread.length = walk.bits :=
  Bits.ofNat_length walk.bits walk.current

/-- The walk when one more octet waits. -/
def Walk.fill (walk : Walk) (octet : UInt8) : Walk :=
  { walk with
    current := walk.current * Bits.values 8 % Bits.values 32 ||| octet.toNat
    bits := walk.bits + 8 }

/-- The walk at a child, eight bits further. -/
def Walk.descend (walk : Walk) (child : Nat) : Walk :=
  { walk with place := child, bits := walk.bits - 8 }

/-- The walk after a symbol. -/
def Walk.emit (walk : Walk) (depth : Nat) (octet : UInt8) : Walk :=
  { walk with place := root, bits := walk.bits - depth, decoded := walk.decoded ++ [octet] }

theorem drop_ofNat {width count : Nat} (hcount : count ≤ width) (value : Nat) :
    (Bits.ofNat width value).drop count = Bits.ofNat (width - count) value := by
  have hbits := Bits.ofNat_add count (width - count) value
  rw [Nat.add_sub_cancel' hcount] at hbits
  rw [hbits, List.drop_left' (Bits.ofNat_length _ _)]

/-- The bits that wait after the first `count` are the low bits of the same word. -/
theorem unread_append {count : Nat} (hcount : count ≤ walk.bits) (following : Bits) :
    walk.unread ++ following =
      walk.unread.take count ++ (Bits.ofNat (walk.bits - count) walk.current ++ following) := by
  have hdrop : walk.unread.drop count = Bits.ofNat (walk.bits - count) walk.current :=
    drop_ofNat hcount walk.current
  rw [← hdrop, ← List.append_assoc, List.take_append_drop]

theorem take_unread_ne_nil {count : Nat} (hpos : 0 < count) (hcount : count ≤ walk.bits) :
    walk.unread.take count ≠ [] := by
  apply List.ne_nil_of_length_pos
  rw [List.length_take, length_unread]
  omega

/-- The eight bits that are decoded next are those that wait longest. -/
theorem ofNat_shiftRight (hbits : 8 ≤ walk.bits) :
    Bits.ofNat 8 (walk.current / Bits.values (walk.bits - 8) % 256) = walk.unread.take 8 := by
  have hsplit := Bits.ofNat_add 8 (walk.bits - 8) walk.current
  rw [Nat.add_sub_cancel' hbits] at hsplit
  rw [Walk.unread, hsplit, List.take_left' (Bits.ofNat_length _ _)]
  exact Bits.ofNat_mod 8 _

/-- Fewer than eight bits are filled up with zeros. -/
theorem ofNat_shiftLeft (hbits : walk.bits < 8) :
    Bits.ofNat 8 (walk.current * Bits.values (8 - walk.bits) % Bits.values 32 % 256) =
      walk.unread ++ Bits.ofNat (8 - walk.bits) 0 := by
  have hmod : walk.current * Bits.values (8 - walk.bits) % Bits.values 32 % Bits.values 8 =
      walk.current * Bits.values (8 - walk.bits) % Bits.values 8 :=
    Nat.mod_mod_of_dvd _ (Nat.pow_dvd_pow 2 (by decide))
  have hsplit := Bits.ofNat_mul_add walk.bits walk.current (Bits.values_pos (8 - walk.bits))
  rw [Nat.add_sub_cancel' (Nat.le_of_lt hbits), Nat.add_zero] at hsplit
  rw [Walk.unread, ← hsplit, ← Bits.ofNat_mod 8 (walk.current * _), ← hmod]
  rfl

/-- One more octet follows the bits that wait. -/
theorem unread_fill (hbits : walk.bits < 8) (octet : UInt8) :
    (walk.fill octet).unread = walk.unread ++ Bits.ofNat 8 octet.toNat := by
  have hlow : octet.toNat < Bits.values 8 := octet.toNat_lt
  have hshift : walk.current * Bits.values 8 % Bits.values 32 =
      walk.current % Bits.values 24 * Bits.values 8 :=
    Nat.mul_mod_mul_right (Bits.values 8) walk.current (Bits.values 24)
  have hmod : walk.current % Bits.values 24 % Bits.values walk.bits =
      walk.current % Bits.values walk.bits :=
    Nat.mod_mod_of_dvd _ (Nat.pow_dvd_pow 2 (by omega))
  rw [Walk.unread, Walk.fill]
  dsimp only
  rw [hshift, mul_values_or _ hlow,
    Bits.ofNat_mul_add _ _ hlow, Walk.unread, ← Bits.ofNat_mod walk.bits, hmod, Bits.ofNat_mod]

/-! ## Steps through the tree -/

/-- A path that leads anywhere leads through branches before its end. -/
theorem exists_branch_of_follow_append {path others : Bits}
    (hfollow : tree.follow (path ++ others) ≠ .unassigned) (hne : others ≠ []) :
    ∃ zero one, tree.follow path = .branch zero one := by
  obtain ⟨bit, others, rfl⟩ := List.exists_cons_of_ne_nil hne
  rw [CodeTree.follow_append] at hfollow
  cases hpath : tree.follow path with
  | unassigned => simp [hpath] at hfollow
  | leaf symbol => simp [hpath] at hfollow
  | branch zero one => exact ⟨zero, one, rfl⟩

theorem decodeFrom_append_of_follow_branch {path : Bits} {zero one : CodeTree}
    (hfollow : tree.follow path = .branch zero one) (pending rest : Bits) :
    Huffman.decodeFrom tree pending (path ++ rest) =
      Huffman.decodeFrom (.branch zero one) (path.reverse ++ pending) rest := by
  induction path generalizing tree pending with
  | nil =>
    obtain rfl : tree = .branch zero one := hfollow
    rfl
  | cons bit path hpath =>
    rw [CodeTree.follow] at hfollow
    rw [List.cons_append, Huffman.decodeFrom]
    cases hchild : tree.child bit with
    | unassigned => simp [hchild] at hfollow
    | leaf symbol =>
      rw [hchild] at hfollow
      cases path with
      | nil => cases hfollow
      | cons next path => simp at hfollow
    | branch left right =>
      rw [hchild] at hfollow
      rw [List.reverse_cons, List.append_assoc, List.singleton_append]
      exact hpath hfollow (bit :: pending)

theorem decodeFrom_append_of_follow_endOfString {path : Bits}
    (hfollow : tree.follow path = .leaf .endOfString) (hne : path ≠ []) (pending rest : Bits) :
    Huffman.decodeFrom tree pending (path ++ rest) = .error .endOfStringDecoded := by
  obtain ⟨others, bit, rfl⟩ : ∃ others bit, path = others ++ [bit] :=
    ⟨path.dropLast, path.getLast hne, (List.dropLast_concat_getLast hne).symm⟩
  have hsome : tree.follow (others ++ [bit]) ≠ .unassigned := by
    rw [hfollow]
    exact CodeTree.noConfusion
  obtain ⟨zero, one, hbranch⟩ := exists_branch_of_follow_append hsome (List.cons_ne_nil bit [])
  rw [CodeTree.follow_append, hbranch] at hfollow
  rw [List.append_assoc, decodeFrom_append_of_follow_branch hbranch, List.singleton_append,
    Huffman.decodeFrom, show (CodeTree.branch zero one).child bit = .leaf .endOfString from hfollow]

/-- The bits after a codeword are decoded from the root on. -/
theorem outcome_of_octet {depth : Nat} {octet : UInt8} (hpos : 0 < depth)
    (hdepth : depth ≤ walk.bits)
    (hfollow : tree.follow (walk.unread.take depth) = .leaf (.octet octet))
    (pending following : Bits) :
    walk.outcome tree pending following =
      (walk.emit depth octet).outcome codeTree [] following := by
  have hsplit : walk.unread ++ following =
      walk.unread.take depth ++ ((walk.emit depth octet).unread ++ following) :=
    unread_append hdepth following
  rw [Walk.outcome, hsplit,
    decodeFrom_append_of_follow hfollow (take_unread_ne_nil hpos hdepth), Walk.outcome]
  cases Huffman.decodeFrom codeTree [] ((walk.emit depth octet).unread ++ following) with
  | error error => rfl
  | ok octets =>
    have happend : walk.decoded ++ octet :: octets = walk.decoded ++ [octet] ++ octets := by simp
    exact congrArg Except.ok happend

theorem outcome_of_endOfString {depth : Nat} (hpos : 0 < depth) (hdepth : depth ≤ walk.bits)
    (hfollow : tree.follow (walk.unread.take depth) = .leaf .endOfString)
    (pending following : Bits) :
    walk.outcome tree pending following = .error .endOfStringDecoded := by
  rw [Walk.outcome, unread_append hdepth,
    decodeFrom_append_of_follow_endOfString hfollow (take_unread_ne_nil hpos hdepth)]
  rfl

theorem outcome_of_branch {zero one : CodeTree} {child : Nat} (hbits : 8 ≤ walk.bits)
    (hfollow : tree.follow (walk.unread.take 8) = .branch zero one) (pending following : Bits) :
    walk.outcome tree pending following =
      (walk.descend child).outcome (.branch zero one) ((walk.unread.take 8).reverse ++ pending)
        following := by
  rw [Walk.outcome, unread_append hbits, decodeFrom_append_of_follow_branch hfollow]
  rfl

/-- What a child leads to decides between these cases. -/
theorem Walk.At.exists_childOf (hat : walk.At trie tree pending) {octet : Nat}
    (hoctet : octet < 256) :
    ∃ child, childOf trie walk.place octet = some (.ok child) ∧ child ≠ CodeTrie.root ∧
      Leads trie 0 tree (Bits.ofNat 8 octet) child := by
  obtain ⟨children, child, hnode, hchild, hroot, hleads⟩ := hat.represents.exists_child hoctet
  refine ⟨child, ?_, hroot, hleads⟩
  rw [childOf, bind_of_eq_some hnode]
  dsimp only
  rw [bind_of_eq_some hchild, if_neg hroot]
  rfl

/-- A leaf stands below the node of a walk. -/
theorem Walk.At.pos_of_follow (hat : walk.At trie tree pending) {path : Bits} {depth : Nat}
    {symbol : CodeSymbol} (hfollow : tree.follow (path.take depth) = .leaf symbol) : 0 < depth := by
  obtain ⟨zero, one, rfl⟩ := hat.represents.exists_branch
  apply Nat.pos_of_ne_zero
  rintro rfl
  rw [List.take_zero] at hfollow
  cases hfollow

theorem Walk.At.fill (hat : walk.At trie tree pending) (octet : UInt8) :
    (walk.fill octet).At trie tree pending :=
  { hat with }

theorem Walk.At.descend {child : Nat} {zero one : CodeTree}
    (hrepresents : Represents trie child (.branch zero one)) (hchild : child ≠ CodeTrie.root)
    (hbits : 8 ≤ walk.bits) (pending : Bits) :
    (walk.descend child).At trie (.branch zero one)
      ((walk.unread.take 8).reverse ++ pending) where
  represents := hrepresents
  root hplace := absurd hplace hchild
  below _ := by
    rw [List.length_append, List.length_reverse, List.length_take, length_unread]
    omega

theorem Walk.At.emit (hroot : Represents trie CodeTrie.root codeTree) (depth : Nat)
    (octet : UInt8) : (walk.emit depth octet).At trie codeTree [] where
  represents := hroot
  root _ := ⟨rfl, rfl⟩
  below hplace := absurd rfl hplace

/-! ## Results -/

/-- What draining comes to when a walk decodes `whole` in the end. -/
inductive Drained (trie : Trie) (whole : Except DecodingError Octets) (following : Bits) :
    Except DecodingError Walk → Prop
  | failed {error : DecodingError} (hwhole : whole = .error error) :
    Drained trie whole following (.error error)
  | drained {next : Walk} {tree : CodeTree} {pending : Bits} (hat : next.At trie tree pending)
    (hbits : next.bits < 8) (hwhole : whole = next.outcome tree pending following) :
    Drained trie whole following (.ok next)

theorem exists_drain (hroot : Represents trie CodeTrie.root codeTree) (following : Bits)
    {rounds : Nat} (hat : walk.At trie tree pending) (hrounds : walk.bits < rounds)
    (hbits : walk.bits < 16) :
    ∃ result, drain trie rounds walk = some result ∧
      Drained trie (walk.outcome tree pending following) following result := by
  induction rounds generalizing walk tree pending with
  | zero => exact absurd hrounds (Nat.not_lt_zero _)
  | succ rounds hrec =>
    unfold drain
    by_cases hfew : walk.bits < 8
    · rw [if_pos hfew]
      exact ⟨_, rfl, .drained hat hfew rfl⟩
    · have hmany : 8 ≤ walk.bits := Nat.le_of_not_lt hfew
      obtain ⟨child, hchild, hne, hleads⟩ := hat.exists_childOf
        (Nat.mod_lt (walk.current / Bits.values (walk.bits - 8)) (by decide : 0 < 256))
      rw [ofNat_shiftRight hmany] at hleads
      rw [if_neg hfew, bind_of_eq_some (difference_of_le hmany),
        bind_of_eq_some (shiftRight_of_lt (by omega)), bind_of_eq_some hchild]
      dsimp only
      cases hleads with
      | @inner zero one hfollow hrepresents =>
        obtain ⟨children, hnode⟩ := hrepresents.exists_inner
        rw [bind_of_eq_some hnode, outcome_of_branch hmany hfollow]
        exact hrec (.descend hrepresents hne hmany pending) (by dsimp only [Walk.descend]; omega)
          (by dsimp only [Walk.descend]; omega)
      | @terminal symbol depth hnode hdepth hfollow =>
        have hle : depth ≤ 8 := by
          rw [List.length_take, length_unread] at hdepth
          omega
        have hpos := hat.pos_of_follow hfollow
        rw [List.take_take, Nat.min_eq_left hle] at hfollow
        rw [Nat.zero_add] at hnode
        rw [bind_of_eq_some hnode]
        cases symbol with
        | endOfString =>
          exact ⟨_, rfl, .failed (outcome_of_endOfString hpos (by omega) hfollow _ _)⟩
        | octet octet =>
          dsimp only
          rw [bind_of_eq_some (difference_of_le (by omega)),
            outcome_of_octet hpos (by omega) hfollow]
          exact hrec (.emit hroot depth octet) (by dsimp only; omega) (by dsimp only; omega)

/-- Bits are padding if the mask of their width leaves them all. -/
theorem isPadding_reverse_unread (hbits : walk.bits < 8) :
    isPadding walk.unread.reverse = true ↔
      walk.current &&& Bits.ones walk.bits = Bits.ones walk.bits := by
  rw [isPadding_iff, List.length_reverse, length_unread, and_ones]
  constructor
  · rintro ⟨-, hones⟩
    have hunread : Bits.ofNat walk.bits walk.current =
        Bits.ofNat walk.bits (Bits.ones walk.bits) := by
      rw [Bits.ofNat_ones, ← List.reverse_replicate, ← hones, List.reverse_reverse]
      rfl
    rw [← Bits.ofNat_mod] at hunread
    exact Bits.eq_of_ofNat_eq (Nat.mod_lt _ (Bits.values_pos _))
      (Bits.ones_lt_values _) hunread
  · intro hones
    rw [Walk.unread, ← Bits.ofNat_mod, hones, Bits.ofNat_ones, List.reverse_replicate]
    exact ⟨hbits, rfl⟩

theorem finish_eq (hat : walk.At trie tree pending) (hbits : walk.bits < 8) :
    finish walk = some ((if isPadding (walk.unread.reverse ++ pending) then Except.ok []
      else .error .invalidPadding).map (walk.decoded ++ ·)) := by
  unfold finish
  by_cases hplace : walk.place = root
  · obtain ⟨-, rfl⟩ := hat.root hplace
    have hpower : 1 * Bits.values walk.bits % Bits.values 32 = Bits.values walk.bits := by
      rw [Nat.one_mul]
      exact Nat.mod_eq_of_lt (Nat.pow_lt_pow_right (by decide) (by omega))
    have hpos : 1 ≤ Bits.values walk.bits := Bits.values_pos walk.bits
    rw [if_neg (fun hne ↦ hne hplace), bind_of_eq_some (shiftLeft_of_lt (by omega)), hpower,
      bind_of_eq_some (difference_of_le hpos), List.append_nil]
    by_cases hones : walk.current &&& Bits.ones walk.bits = Bits.ones walk.bits
    · rw [if_pos ((isPadding_reverse_unread hbits).2 hones), ← Bits.ones,
        if_neg (fun hne ↦ hne hones), Except.map, List.append_nil]
      rfl
    · rw [if_neg (mt (isPadding_reverse_unread hbits).1 hones), ← Bits.ones, if_pos hones]
      rfl
  · have hbelow := hat.below hplace
    have hpadding : ¬isPadding (walk.unread.reverse ++ pending) = true := by
      intro hpadding
      have hlength := (isPadding_iff.1 hpadding).1
      rw [List.length_append] at hlength
      omega
    rw [if_pos hplace, if_neg hpadding]
    rfl

/-- A walk whose bits do not reach a leaf is at its end. -/
theorem outcome_of_stopped {others : Bits}
    (hfollow : tree.follow (walk.unread ++ others) ≠ .unassigned) (hne : others ≠ [])
    (pending : Bits) :
    walk.outcome tree pending [] = (if isPadding (walk.unread.reverse ++ pending) then Except.ok []
      else .error .invalidPadding).map (walk.decoded ++ ·) := by
  obtain ⟨zero, one, hbranch⟩ := exists_branch_of_follow_append hfollow hne
  rw [Walk.outcome, decodeFrom_append_of_follow_branch hbranch, Huffman.decodeFrom]

theorem settle_eq (hroot : Represents trie CodeTrie.root codeTree) {rounds : Nat}
    (hat : walk.At trie tree pending) (hrounds : walk.bits < rounds) (hbits : walk.bits < 8) :
    settle trie rounds walk = some (walk.outcome tree pending []) := by
  induction rounds generalizing walk tree pending with
  | zero => exact absurd hrounds (Nat.not_lt_zero _)
  | succ rounds hrec =>
    unfold settle
    by_cases hnone : walk.bits = 0
    · have hunread : walk.unread = [] := by
        rw [Walk.unread, hnone]
        rfl
      rw [if_pos hnone, finish_eq hat hbits, Walk.outcome, hunread]
      rfl
    · obtain ⟨child, hchild, hne, hleads⟩ := hat.exists_childOf
        (Nat.mod_lt (walk.current * Bits.values (8 - walk.bits) % Bits.values 32)
          (by decide : 0 < 256))
      have hzeros : Bits.ofNat (8 - walk.bits) 0 ≠ [] := by
        apply List.ne_nil_of_length_pos
        rw [Bits.ofNat_length]
        omega
      -- The zeros have led to this child, so the bits before them stopped at a branch or a leaf.
      rw [ofNat_shiftLeft hbits] at hleads
      rw [if_neg hnone, bind_of_eq_some (difference_of_le (Nat.le_of_lt hbits)),
        bind_of_eq_some (shiftLeft_of_lt (by omega)), bind_of_eq_some hchild]
      dsimp only
      cases hleads with
      | @inner zero one hfollow hrepresents =>
        obtain ⟨children, hnode⟩ := hrepresents.exists_inner
        have hsome : tree.follow (walk.unread ++ Bits.ofNat (8 - walk.bits) 0) ≠ .unassigned := by
          rw [hfollow]
          exact CodeTree.noConfusion
        rw [bind_of_eq_some hnode, outcome_of_stopped hsome hzeros]
        exact finish_eq hat hbits
      | @terminal symbol depth hnode hdepth hfollow =>
        have hpos := hat.pos_of_follow hfollow
        rw [Nat.zero_add] at hnode
        rw [bind_of_eq_some hnode]
        dsimp only
        by_cases hfew : walk.bits < depth
        · have hothers : (Bits.ofNat (8 - walk.bits) 0).take (depth - walk.bits) ≠ [] := by
            apply List.ne_nil_of_length_pos
            rw [List.length_take, Bits.ofNat_length]
            omega
          have hsome : tree.follow (walk.unread ++
              (Bits.ofNat (8 - walk.bits) 0).take (depth - walk.bits)) ≠ .unassigned := by
            rw [List.take_append, length_unread,
              List.take_of_length_le (by rw [length_unread]; exact Nat.le_of_lt hfew)] at hfollow
            rw [hfollow]
            exact CodeTree.noConfusion
          rw [if_pos hfew, outcome_of_stopped hsome hothers]
          exact finish_eq hat hbits
        · have hle : depth ≤ walk.bits := Nat.le_of_not_lt hfew
          rw [List.take_append_of_le_length (by rw [length_unread]; exact hle)] at hfollow
          rw [if_neg hfew]
          cases symbol with
          | endOfString => rw [outcome_of_endOfString hpos hle hfollow]; rfl
          | octet octet =>
            dsimp only
            rw [bind_of_eq_some (difference_of_le hle), outcome_of_octet hpos hle hfollow]
            exact hrec (.emit hroot depth octet) (by dsimp only; omega) (by dsimp only; omega)

theorem decodeFrom_eq (hroot : Represents trie CodeTrie.root codeTree) (octets : Octets)
    (hat : walk.At trie tree pending) (hbits : walk.bits < 8) :
    decodeFrom trie octets walk = some (walk.outcome tree pending (Octets.bits octets)) := by
  induction octets generalizing walk tree pending with
  | nil => exact settle_eq hroot hat (Nat.lt_succ_self _) hbits
  | cons octet octets hrec =>
    have hlong : walk.bits + 8 ≤ largestShort := by
      unfold largestShort
      omega
    have houtcome : walk.outcome tree pending (Octets.bits (octet :: octets)) =
        (walk.fill octet).outcome tree pending (Octets.bits octets) := by
      rw [Walk.outcome, Walk.outcome, unread_fill hbits octet, Octets.bits_cons,
        List.append_assoc]
      rfl
    obtain ⟨result, hresult, hdrained⟩ := exists_drain hroot (Octets.bits octets) (hat.fill octet)
      (Nat.lt_add_one (walk.bits + 8)) (show walk.bits + 8 < 16 by omega)
    rw [decodeFrom, bind_of_eq_some (shiftLeft_of_lt (by decide)),
      bind_of_eq_some (sum_of_le hlong), ← Walk.fill, bind_of_eq_some hresult, houtcome]
    cases hdrained with
    | failed hwhole =>
      rw [hwhole]
      rfl
    | drained hat hfew hwhole =>
      rw [hwhole]
      exact hrec hat hfew

/-- A walk from the root yields what the code tree yields. -/
theorem decodeFrom_root_eq (hroot : Represents trie CodeTrie.root codeTree) (octets : Octets) :
    decodeFrom trie octets { } = some (Huffman.decode octets) := by
  have hstart : Walk.At trie { } codeTree [] :=
    ⟨hroot, fun _ ↦ ⟨rfl, rfl⟩, fun hplace ↦ absurd rfl hplace⟩
  have hunread : ({ } : Walk).unread ++ Octets.bits octets = Octets.bits octets := rfl
  rw [decodeFrom_eq hroot octets hstart (by decide), Walk.outcome, hunread, Huffman.decode]
  cases Huffman.decodeFrom codeTree [] (Octets.bits octets) <;> rfl

/-- Decoding a string fails in no operation, and yields what the code tree yields. -/
theorem decode_eq {octets : Octets} (hlength : octets.length * 8 ≤ Size.largest) :
    decode octets = some (Huffman.decode octets) := by
  obtain ⟨trie, hbuild, hroot⟩ := exists_build
  rw [decode, bind_of_eq_some hbuild, bind_of_eq_some (product_of_le hlength),
    bind_of_eq_some (quotient_of_pos (by decide)), decodeFrom_root_eq hroot]

/-- Decoding a string has a result exactly if its bits can be counted. -/
theorem decode_eq_some_iff {octets : Octets} {result : Except DecodingError Octets} :
    decode octets = some result ↔
      octets.length * 8 ≤ Size.largest ∧ Huffman.decode octets = result := by
  by_cases hlength : octets.length * 8 ≤ Size.largest
  · rw [decode_eq hlength, Option.some_inj, and_iff_right hlength]
  · obtain ⟨trie, hbuild, -⟩ := exists_build
    have hnone : decode octets = none := by
      rw [decode, bind_of_eq_some hbuild, product, if_neg hlength]
      rfl
    rw [hnone]
    exact iff_of_false (Option.some_ne_none result).symm (fun hboth ↦ hlength hboth.1)

end HeaderCompression.Checked.HuffmanDecoding
