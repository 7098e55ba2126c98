import LedgerChain.Block
import LedgerChain.Sums
import LedgerChain.Table

/-!
# The tree of blocks above the finalized one

Every validated block that is not yet final is kept in a tree whose root is the last finalized
block.  An entry knows its children, and the sum of the weights from the root (inclusive) to it; the
tips of the tree are its leaves.

A block's **lineage** is the list of blocks from it down to the root.  It is read off the parent
links; since heights grow by one along them, a block's height bounds its length.  Where a sum of
heights has overflowed there are lineages that stop short of the root, at a block of height zero.
-/

namespace LedgerChain

/-- A block of the tree, with what it has below and above it. -/
structure TreeEntry where
  tip : ChainTip
  /-- The blocks right above. -/
  children : List BlockId := []
  /-- The sum of the weights from the root of the tree (inclusive) to the block, as `Sums` has it;
  with sums that wrap around it fits in 128 bits. -/
  cumulativeWeight : Nat
deriving DecidableEq

namespace TreeEntry

/-- The block below. -/
def parent (e : TreeEntry) : BlockId := e.tip.parent

/-- The height of the block. -/
def height (e : TreeEntry) : Nat := e.tip.height

end TreeEntry

/-- Why a block cannot be attached or finalized. -/
inductive TreeError where
  | missingParent (block parent : BlockId)
  | badHeight (block : BlockId) (height parentHeight : Nat)
  | missingBlock (block : BlockId)
  | notDescendant (block : BlockId)
deriving DecidableEq

/-- The wording of a tree error. -/
def TreeError.message : TreeError → String
  | missingParent block parent =>
    s!"tried to attach blkid {block} but missing parent blkid {parent}"
  | badHeight block height parentHeight =>
    s!"tried to attach blkid {block} at height {height} on parent at height {parentHeight}"
  | missingBlock block => s!"tried to finalize unknown block {block}"
  | notDescendant block => s!"tried to finalize block {block} not descended from finalized tip"

/-- The blocks above the last finalized one. -/
structure ChainTree where
  /-- The last finalized block. -/
  root : BlockId
  /-- The root and all blocks above it. -/
  entries : Table BlockId TreeEntry
  /-- The blocks without children. -/
  tips : List BlockId

namespace ChainTree

/-- The tree with only a root. -/
def ofRoot [Crypto] (tip : ChainTip) (cumulativeWeight : Nat) : ChainTree where
  root := tip.id
  entries := .single tip.id { tip, cumulativeWeight }
  tips := [tip.id]

/-- The entry of a block. -/
def find? (t : ChainTree) (id : BlockId) : Option TreeEntry := t.entries.find? id

/-- Whether a block is in the tree. -/
def contains (t : ChainTree) (id : BlockId) : Bool := t.entries.contains id

/-- The number of blocks in the tree. -/
def size (t : ChainTree) : Nat := t.entries.size

/-- The height of the root. -/
def rootHeight (t : ChainTree) : Nat := ((t.find? t.root).map TreeEntry.height).getD 0

/-- The parent of a block other than the root. -/
def parent? (t : ChainTree) (id : BlockId) : Option BlockId :=
  if id = t.root then none else (t.find? id).map TreeEntry.parent

/-- The children of a block. -/
def children (t : ChainTree) (id : BlockId) : List BlockId :=
  ((t.find? id).map TreeEntry.children).getD []

/-- At most `steps + 1` blocks from `id` on along the parent links. -/
def lineageFrom (t : ChainTree) : (steps : Nat) → (id : BlockId) → List BlockId
  | steps, id =>
    match t.find? id with
    | none => []
    | some e =>
      if id = t.root then [id]
      else
        match steps with
        | 0 => [id]
        | steps + 1 => id :: lineageFrom t steps e.parent

/-- The blocks from `id` down to the root. -/
def lineage (t : ChainTree) (id : BlockId) : List BlockId :=
  t.lineageFrom (((t.find? id).map TreeEntry.height).getD 0) id

/-- The blocks from `id` down to the root, without the root, if the root is reached.  Heights are
not looked at here; there are no more steps than blocks. -/
def path? (t : ChainTree) (id : BlockId) : Option (List BlockId) :=
  let line := t.lineageFrom t.size id
  if t.root ∈ line then some (line.takeWhile fun b => b ≠ t.root) else none

/-- The block at a height on the way from `id` to the root. -/
def ancestorAt? (t : ChainTree) (id : BlockId) (height : Nat) : Option BlockId :=
  (t.lineage id).find? fun b => (t.find? b).map TreeEntry.height = some height

/-- The blocks above a list of blocks, layer by layer, for the given number of layers. -/
def layersAbove (t : ChainTree) : (layers : Nat) → List BlockId → List BlockId
  | 0, _ => []
  | layers + 1, level =>
    let above := level.flatMap t.children
    above ++ layersAbove t layers above

/-- All blocks above a block. -/
def descendants (t : ChainTree) (id : BlockId) : List BlockId := t.layersAbove t.size [id]

/-! ### Attaching blocks -/

/-- Adds a validated block on top of its parent.  Also tells whether this opens a new branch, rather
than extending the tip of one.  A block that is already there is left alone. -/
def attach [Crypto] [Sums] (t : ChainTree) (tip : ChainTip) :
    Except TreeError (Bool × ChainTree) :=
  let id := tip.id
  if t.contains id then .ok (false, t)
  else
    match t.find? tip.parent with
    | none => .error (.missingParent id tip.parent)
    | some below =>
      if tip.height ≠ Sums.addHeights below.height 1 then
        .error (.badHeight id tip.height below.height)
      else
        let linked := { below with children := below.children.insert id }
        let entry : TreeEntry :=
          { tip, cumulativeWeight := Sums.addWeights below.cumulativeWeight tip.weight }
        let forked := tip.parent ∉ t.tips
        .ok (forked, {
          t with
          entries := (t.entries.insert tip.parent linked).insert id entry
          tips := (t.tips.filter fun b => b ≠ tip.parent).insert id })

/-! ### Removing blocks -/

/-- Takes a single block out.  Blocks above it stay, without a way down to the root. -/
def remove (t : ChainTree) (id : BlockId) : ChainTree :=
  let entries := t.entries.erase id
  match t.parent? id with
  | none => { t with entries, tips := t.tips.filter fun b => b ≠ id }
  | some parent =>
    match entries.find? parent with
    | none => { t with entries, tips := t.tips.filter fun b => b ≠ id }
    | some below =>
      let children := below.children.filter fun b => b ≠ id
      let tips := if children.isEmpty then t.tips.insert parent else t.tips
      { t with
        entries := entries.insert parent { below with children }
        tips := tips.filter fun b => b ≠ id }

/-- Takes a block out without looking at its relatives. -/
def forget (t : ChainTree) (id : BlockId) : ChainTree :=
  { t with entries := t.entries.erase id, tips := t.tips.filter fun b => b ≠ id }

/-! ### Finalizing -/

/-- What a move of the root did. -/
structure FinalizeReport where
  /-- The root before. -/
  previous : BlockId
  /-- The blocks that became final, the new root first. -/
  finalized : List BlockId
  /-- The blocks on other branches, which are gone for good. -/
  rejected : List BlockId
deriving DecidableEq

/-- The root after. -/
def FinalizeReport.newRoot (r : FinalizeReport) : BlockId := r.finalized.headD r.previous

/-- The blocks right above the given ones that are not on the path. -/
def branchesOff (t : ChainTree) (path blocks : List BlockId) : List BlockId :=
  blocks.flatMap fun b => (t.children b).filter fun c => c ∉ path

/-- Moves the root up to a block of the tree.  The blocks on the way become final; all blocks that
are not above the new root are dropped. -/
def finalize (t : ChainTree) (id : BlockId) : Except TreeError (FinalizeReport × ChainTree) :=
  if !t.contains id then .error (.missingBlock id)
  else
    match t.path? id with
    | none => .error (.notDescendant id)
    | some path =>
      if id = t.root then .ok (⟨id, [], []⟩, t)
      else
        let below := path.tail ++ [t.root]
        let branches := t.branchesOff path below
        let rejected := branches ++ branches.flatMap t.descendants
        let pruned := below.foldl forget (rejected.foldl remove t)
        let tips := if (pruned.children id).isEmpty then pruned.tips.insert id else pruned.tips
        .ok (⟨t.root, path, rejected⟩, { pruned with root := id, tips })

end ChainTree

end LedgerChain
