import HeaderCompression.Proofs.Checked.Operations
import HeaderCompression.Proofs.Huffman.CodeTree

/-!
# The code trie

Decoding eight bits at a time needs a trie whose nodes have 256 children. It is built from the
codebook: a codeword of more than eight bits leads to an inner node for each eight of them, and what
remains of it fills the children of the last one that begin with it. The trie is laid out node after
node, and nodes are known by their places. The root is no child of any node, so its place stands for
a child that is missing.

The trie is built without a failure, and every inner node has the children that the code tree has
eight levels below.
-/

namespace HeaderCompression.Checked.CodeTrie

open HeaderCompression.Huffman

/-! ## Tries -/

inductive Node where
  | inner (children : List Nat)
  | terminal (symbol : CodeSymbol) (depth : Nat)
  deriving DecidableEq

abbrev Trie := List Node

def root : Nat := 0

/-- An inner node that has no children yet. -/
def Node.vacant : Node :=
  .inner (List.replicate 256 root)

/-- The children of a node, which must be an inner one. -/
def childrenOf (trie : Trie) (place : Nat) : Option (List Nat) := do
  match ← trie[place]? with
  | .inner children => return children
  | .terminal _ _ => none

/-- Set `count` elements from `first` on, which must exist. -/
def overwrite : (first count value : Nat) → List Nat → Option (List Nat)
  | 0, 0, _, elements => some elements
  | _, _, _, [] => none
  | 0, count + 1, value, _ :: elements => do
    let elements ← overwrite 0 count value elements
    return value :: elements
  | first + 1, count, value, element :: elements => do
    let elements ← overwrite first count value elements
    return element :: elements

/-- Put a symbol below a node, where the `length` low bits of `value` lead to it. A codeword passes
through at most four nodes, and after `levels` more of them there is no result. -/
def insert : (levels : Nat) → Trie → (place : Nat) → CodeSymbol → (value length : Nat) → Option Trie
  | 0, _, _, _, _, _ => none
  | levels + 1, trie, place, symbol, value, length => do
    let children ← childrenOf trie place
    if 8 < length then
      let length ← difference length 8
      let shifted ← shiftRight 32 value length
      let octet := shifted % 256
      let child ← children[octet]?
      if child = root then
        let linked := Node.inner (children.set octet trie.length)
        let trie := (trie ++ [Node.vacant]).set place linked
        insert levels trie (trie.length - 1) symbol value length
      else insert levels trie child symbol value length
    else
      let free ← difference 8 length
      let shifted ← shiftLeft 32 value free
      let count ← shiftLeft 64 1 free
      let children ← overwrite (shifted % 256) count trie.length children
      return (trie ++ [Node.terminal symbol length]).set place (.inner children)

/-- The trie of the codebook. -/
def build : Option Trie :=
  codewords.foldlM (fun trie pair ↦ insert 4 trie root pair.1 pair.2.value pair.2.length)
    [Node.vacant]

/-! ## Tries and trees -/

/-- Whether the children that `width` further bits choose among are those of a subtree, which stands
`depth` levels below its node. -/
def covers (trie : Trie) (below : Nat → CodeTree → Bool) :
    (depth width : Nat) → CodeTree → List Nat → Bool
  | depth, width, .leaf symbol, child :: others =>
    child ≠ root && trie[child]? = some (.terminal symbol depth) &&
      (others.length + 1 = Bits.values width && others.all (· = child))
  | _, 0, .branch zero one, [child] => child ≠ root && below child (.branch zero one)
  | depth, width + 1, .branch zero one, children =>
    covers trie below (depth + 1) width zero (children.take (Bits.values width)) &&
      covers trie below (depth + 1) width one (children.drop (Bits.values width))
  | _, _, _, _ => false

/-- Whether a node stands for a branch of the code tree, down to `levels` nodes below each other. -/
def agrees (trie : Trie) : (levels place : Nat) → CodeTree → Bool
  | levels + 1, place, .branch zero one =>
    match trie[place]? with
    | some (.inner children) =>
      covers trie (agrees trie levels) 0 8 (.branch zero one) children
    | _ => false
  | _, _, _ => false

/-- A node stands for a branch of the code tree. -/
def Represents (trie : Trie) (place : Nat) (tree : CodeTree) : Prop :=
  ∃ levels, agrees trie levels place tree = true

/-- Where a child leads that stands at the end of a path below a subtree: to a leaf on the path, or
to the branch at its end. -/
inductive Leads (trie : Trie) (depth : Nat) (tree : CodeTree) (path : Bits) (child : Nat) : Prop
  | terminal {symbol : CodeSymbol} {count : Nat}
    (hnode : trie[child]? = some (.terminal symbol (depth + count))) (hcount : count ≤ path.length)
    (hfollow : tree.follow (path.take count) = .leaf symbol)
  | inner {zero one : CodeTree} (hfollow : tree.follow path = .branch zero one)
    (hrepresents : Represents trie child (.branch zero one))

variable {trie : Trie} {tree : CodeTree}

theorem Leads.cons {depth child : Nat} {bit : Bool} {path : Bits}
    (hleads : Leads trie (depth + 1) (tree.child bit) path child) :
    Leads trie depth tree (bit :: path) child := by
  cases hleads with
  | @terminal symbol count hnode hcount hfollow =>
    rw [Nat.add_right_comm] at hnode
    exact .terminal hnode (Nat.succ_le_succ hcount) hfollow
  | inner hfollow hrepresents => exact .inner hfollow hrepresents

theorem getElem?_of_forall_eq {child : Nat} {others : List Nat}
    (hothers : ∀ other ∈ others, other = child) {place : Nat} (hplace : place < others.length + 1) :
    (child :: others)[place]? = some child := by
  cases place with
  | zero => rfl
  | succ place =>
    have hlt : place < others.length := Nat.lt_of_succ_lt_succ hplace
    rw [List.getElem?_cons_succ, List.getElem?_eq_getElem hlt,
      hothers _ (List.getElem_mem hlt)]

/-- In the lower half of the numbers the first bit is a zero, and in the upper half it is a one. -/
theorem ofNat_succ_of_lt {width value : Nat} (hvalue : value < Bits.values width) :
    Bits.ofNat (width + 1) value = false :: Bits.ofNat width value := by
  have hbit : value.testBit width = false := Nat.testBit_lt_two_pow hvalue
  rw [Bits.ofNat, hbit]

theorem ofNat_succ_add {width value : Nat} (hvalue : value < Bits.values width) :
    Bits.ofNat (width + 1) (Bits.values width + value) = true :: Bits.ofNat width value := by
  have hbit : (Bits.values width + value).testBit width = true := by
    have hlow : value.testBit width = false := Nat.testBit_lt_two_pow hvalue
    have hsum := Nat.testBit_two_pow_add_eq value width
    rw [hlow] at hsum
    exact hsum
  rw [Bits.ofNat, hbit, ← Bits.ofNat_mod, Nat.add_mod_left, Bits.ofNat_mod]

/-- Every path has a child, which is found at the number that the path spells. -/
theorem exists_child_of_covers {below : Nat → CodeTree → Bool}
    (hbelow : ∀ child subtree, below child subtree = true → Represents trie child subtree)
    {depth width : Nat} {children : List Nat}
    (hcovers : covers trie below depth width tree children = true) {place : Nat}
    (hplace : place < Bits.values width) :
    ∃ child, children[place]? = some child ∧ child ≠ root ∧
      Leads trie depth tree (Bits.ofNat width place) child := by
  fun_induction covers trie below depth width tree children generalizing place with
  | case1 depth width symbol child others =>
    simp only [Bool.and_eq_true, decide_eq_true_eq, List.all_eq_true] at hcovers
    obtain ⟨⟨hroot, hnode⟩, hlength, hothers⟩ := hcovers
    rw [← hlength] at hplace
    exact ⟨child, getElem?_of_forall_eq hothers hplace, hroot,
      .terminal hnode (Nat.zero_le _) rfl⟩
  | case2 depth zero one child =>
    simp only [Bool.and_eq_true, decide_eq_true_eq] at hcovers
    obtain rfl : place = 0 := Nat.lt_one_iff.1 hplace
    exact ⟨child, rfl, hcovers.1, .inner rfl (hbelow child _ hcovers.2)⟩
  | case3 depth width zero one children hzero hone =>
    obtain ⟨hfirst, hsecond⟩ := (Bool.and_eq_true _ _).mp hcovers
    by_cases hlow : place < Bits.values width
    · obtain ⟨child, hchild, hroot, hleads⟩ := hzero hfirst hlow
      rw [List.getElem?_take_of_lt hlow] at hchild
      rw [ofNat_succ_of_lt hlow]
      exact ⟨child, hchild, hroot, hleads.cons⟩
    · obtain ⟨upper, rfl⟩ := Nat.exists_eq_add_of_le (Nat.le_of_not_lt hlow)
      rw [Bits.values_succ] at hplace
      have hupper : upper < Bits.values width := by omega
      obtain ⟨child, hchild, hroot, hleads⟩ := hone hsecond hupper
      rw [List.getElem?_drop] at hchild
      rw [ofNat_succ_add hupper]
      exact ⟨child, hchild, hroot, hleads.cons⟩
  | case4 => cases hcovers

/-! ## Nodes -/

theorem Represents.exists_branch {place : Nat} (hrepresents : Represents trie place tree) :
    ∃ zero one, tree = .branch zero one := by
  obtain ⟨levels, hagrees⟩ := hrepresents
  cases levels with
  | zero => cases hagrees
  | succ levels =>
    cases tree with
    | unassigned => cases hagrees
    | leaf symbol => cases hagrees
    | branch zero one => exact ⟨zero, one, rfl⟩

/-- A node has a child for every octet. -/
theorem Represents.exists_child {place : Nat} (hrepresents : Represents trie place tree)
    {octet : Nat} (hoctet : octet < 256) :
    ∃ children child, trie[place]? = some (.inner children) ∧ children[octet]? = some child ∧
      child ≠ root ∧ Leads trie 0 tree (Bits.ofNat 8 octet) child := by
  obtain ⟨zero, one, rfl⟩ := hrepresents.exists_branch
  obtain ⟨levels, hagrees⟩ := hrepresents
  cases levels with
  | zero => cases hagrees
  | succ levels =>
    unfold agrees at hagrees
    split at hagrees
    · rename_i children hnode
      have hbelow : ∀ child subtree, agrees trie levels child subtree = true →
          Represents trie child subtree := fun _ _ hchild ↦ ⟨levels, hchild⟩
      obtain ⟨child, hchild, hroot, hleads⟩ := exists_child_of_covers hbelow hagrees hoctet
      exact ⟨children, child, hnode, hchild, hroot, hleads⟩
    · cases hagrees

theorem Represents.exists_inner {place : Nat} (hrepresents : Represents trie place tree) :
    ∃ children, trie[place]? = some (.inner children) := by
  obtain ⟨children, -, hnode, -⟩ := hrepresents.exists_child (by decide : 0 < 256)
  exact ⟨children, hnode⟩

/-- The trie of the codebook is built, and its root stands for the code tree. -/
theorem exists_build : ∃ trie, build = some trie ∧ Represents trie root codeTree := by
  -- What is evaluated is the tree as a fold over the list of codewords.
  have hbuild : (build.any fun trie ↦ agrees trie 4 root (codewords.foldl
      (fun tree pair ↦ tree.insert pair.1 pair.2.bits) CodeTree.unassigned)) = true := by
    decide +kernel
  rw [← codeTree_eq_foldl_codewords] at hbuild
  obtain ⟨trie, htrie, hagrees⟩ := (Option.any_eq_true _ _).1 hbuild
  exact ⟨trie, htrie, 4, hagrees⟩

end HeaderCompression.Checked.CodeTrie
