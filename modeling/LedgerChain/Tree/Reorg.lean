import LedgerChain.Tree

/-!
# Switching from one block to another

To get from one block of the tree to another, the chain is taken down to the highest block that the
two share, and built up again from there.
-/

namespace LedgerChain

/-- A way from one block to another. -/
structure Reorg where
  /-- The blocks to take off, in the order in which they go. -/
  down : List BlockId
  /-- The highest block that both share. -/
  pivot : BlockId
  /-- The blocks to put on, in the order in which they come. -/
  up : List BlockId
deriving DecidableEq

namespace Reorg

/-- The number of blocks that are taken off. -/
def depth (r : Reorg) : Nat := r.down.length

end Reorg

/-- The way from one block of the tree to another, if both are in it. -/
def ChainTree.reorg? (t : ChainTree) (start dest : BlockId) : Option Reorg :=
  let source := t.lineage start
  let target := t.lineage dest
  match source.find? fun b => b ∈ target with
  | none => none
  | some pivot =>
    some {
      down := source.takeWhile fun b => b ≠ pivot
      pivot
      up := (target.takeWhile fun b => b ≠ pivot).reverse }

end LedgerChain
