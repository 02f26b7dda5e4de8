import HeaderCompression.Huffman.Codebook

/-!
# The code tree

Codewords are read along a binary tree: a zero bit leads to the first branch and a one bit to the
second, and a leaf holds the symbol whose codeword is the path to it. The tree is grown from the
codebook, one codeword after the other.
-/

namespace HeaderCompression.Huffman

inductive CodeTree where
  /-- No codeword begins with the path that leads here. -/
  | unassigned
  | leaf (symbol : CodeSymbol)
  | branch (zero one : CodeTree)
  deriving DecidableEq, Repr, Inhabited

namespace CodeTree

/-- The subtrees after a zero bit and after a one bit. -/
def branches : CodeTree → CodeTree × CodeTree
  | branch zero one => (zero, one)
  | _ => (unassigned, unassigned)

/-- The subtree after one bit. -/
def child (tree : CodeTree) (bit : Bool) : CodeTree :=
  if bit then tree.branches.2 else tree.branches.1

/-- Put a symbol at the end of a path. -/
def insert (symbol : CodeSymbol) : Bits → CodeTree → CodeTree
  | [], _ => leaf symbol
  | false :: path, tree => branch (insert symbol path tree.branches.1) tree.branches.2
  | true :: path, tree => branch tree.branches.1 (insert symbol path tree.branches.2)

end CodeTree

/-- The tree of all codewords of the codebook. -/
def codeTree : CodeTree :=
  CodeSymbol.all.foldl (fun tree symbol ↦ tree.insert symbol (codeword symbol).bits) .unassigned

end HeaderCompression.Huffman
