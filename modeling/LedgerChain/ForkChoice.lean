import LedgerChain.ChainError
import LedgerChain.Tree.Reorg

/-!
# Fork choice

Of all tips of the tree the canonical one has the greatest cumulative weight; of tips of equal
weight it has the smallest identifier.  This depends on the blocks in the tree only, not on the
order in which they came.

Considering a new block attaches it and moves the canonical tip if the best tip changed.  Once the
canonical tip is far enough above the root, the root moves up behind it.
-/

namespace LedgerChain

/-- Why a block makes no difference to the canonical chain. -/
inductive IgnoreReason where
  /-- The block is in the tree already. -/
  | alreadyKnown
  /-- The block was attached but does not beat the canonical tip. -/
  | notBetter
  /-- The block builds on one that was finalized over or dropped. -/
  | stale
deriving DecidableEq

/-- What became of the canonical chain when a block was considered. -/
inductive Outcome where
  /-- The block lies on the old canonical tip and is the new one. -/
  | extended
  /-- The canonical tip moved to another branch. -/
  | switched (retract apply : List Block)
  /-- The canonical tip did not move. -/
  | ignored (reason : IgnoreReason)
deriving DecidableEq

/-- Whether the canonical tip moved. -/
def Outcome.changedCanonical : Outcome → Bool
  | ignored _ => false
  | _ => true

/-- The tree of blocks, with its canonical tip. -/
structure ForkChoice where
  /-- How far below the canonical tip blocks become final. -/
  finalityDepth : Nat
  tree : ChainTree
  /-- The canonical tip. -/
  best : BlockId
  /-- The height of the canonical tip. -/
  bestHeight : Nat

namespace ForkChoice

/-- Whether the first of two weighted blocks is the better tip. -/
def beats (a b : BlockId × Nat) : Bool := b.2 < a.2 || (a.2 = b.2 && a.1 < b.1)

/-- The better of two weighted blocks. -/
def better (a b : BlockId × Nat) : BlockId × Nat := if beats b a then b else a

/-- The best of a list of weighted blocks. -/
def bestOf : List (BlockId × Nat) → Option (BlockId × Nat)
  | [] => none
  | a :: rest => some (rest.foldl better a)

/-- The tips of a tree with their cumulative weights. -/
def weightedTips (t : ChainTree) : List (BlockId × Nat) :=
  t.tips.filterMap fun id => (t.find? id).map fun e => (id, e.cumulativeWeight)

/-- The best tip of a tree. -/
def bestTip? (t : ChainTree) : Option BlockId := (bestOf (weightedTips t)).map Prod.fst

/-- Makes a block the canonical tip. -/
def setBest (f : ForkChoice) (id : BlockId) : ForkChoice :=
  { f with best := id, bestHeight := ((f.tree.find? id).map TreeEntry.height).getD f.bestHeight }

/-- The fork choice over a tree, with its best tip as the canonical one. -/
def ofTree (finalityDepth : Nat) (t : ChainTree) : ForkChoice :=
  let f : ForkChoice := ⟨finalityDepth, t, t.root, t.rootHeight⟩
  match bestTip? t with
  | none => f
  | some id => f.setBest id

/-- The canonical tip with its state. -/
def bestChainTip? (f : ForkChoice) : Option ChainTip := (f.tree.find? f.best).map TreeEntry.tip

/-- The weight of the canonical chain. -/
def bestWeight (f : ForkChoice) : Nat :=
  ((f.tree.find? f.best).map TreeEntry.cumulativeWeight).getD 0

/-- The blocks with the given identifiers. -/
def collect (t : ChainTree) : List BlockId → Except ChainError (List Block)
  | [] => .ok []
  | id :: rest =>
    match t.find? id with
    | none => .error (.missingBlock id)
    | some e =>
      match collect t rest with
      | .error err => .error err
      | .ok blocks => .ok (e.tip.block :: blocks)

/-- The outcome of moving the canonical tip along a way, after the given block was attached. -/
def outcomeOf (t : ChainTree) (attached : BlockId) (way : Reorg) : Except ChainError Outcome :=
  if way.down = [] ∧ way.up = [attached] then .ok .extended
  else
    match collect t way.down with
    | .error e => .error e
    | .ok retract =>
      match collect t way.up with
      | .error e => .error e
      | .ok apply => .ok (.switched retract apply)

/-- Moves the canonical tip to the best tip, after the given block was attached. -/
def follow (f : ForkChoice) (attached : BlockId) : Except ChainError Outcome × ForkChoice :=
  match bestTip? f.tree with
  | none => (.error (.missingBlock attached), f)
  | some id =>
    if id = f.best then (.ok (.ignored .notBetter), f)
    else
      match f.tree.reorg? f.best id with
      | none => (.error (.noReorg f.best id), f)
      | some way =>
        match outcomeOf f.tree attached way with
        | .error e => (.error e, f)
        | .ok outcome => (.ok outcome, f.setBest id)

/-- Adds a validated block to the tree and moves the canonical tip if there is a better one. -/
def consider [Crypto] [Sums] (f : ForkChoice) (tip : ChainTip) :
    Except ChainError Outcome × ForkChoice :=
  if f.tree.contains tip.id then (.ok (.ignored .alreadyKnown), f)
  else if !f.tree.contains tip.parent then
    if tip.height ≤ Sums.addHeights f.tree.rootHeight 1 then (.ok (.ignored .stale), f)
    else (.error (.tree (.missingParent tip.id tip.parent)), f)
  else
    match f.tree.attach tip with
    | .error e => (.error (.tree e), f)
    | .ok (_, t) => follow { f with tree := t } tip.id

/-- Moves the canonical tip back to a block of the tree, if the move could not be stored. -/
def rollback (f : ForkChoice) (previous : BlockId) : Except ChainError ForkChoice :=
  if f.tree.contains previous then .ok (f.setBest previous) else .error (.missingBlock previous)

/-- Finalizes the canonical block `finalityDepth` below the tip, if that is above the root. -/
def advanceRoot [Sums] (f : ForkChoice) :
    Except ChainError (Option ChainTree.FinalizeReport × ForkChoice) :=
  if f.bestHeight ≤ Sums.addHeights f.tree.rootHeight f.finalityDepth then .ok (none, f)
  else
    match f.tree.ancestorAt? f.best (Sums.subHeights f.bestHeight f.finalityDepth) with
    | none => .error (.missingBlock f.best)
    | some target =>
      match f.tree.finalize target with
      | .error e => .error (.tree e)
      | .ok (report, t) => .ok (some report, { f with tree := t })

end ForkChoice

end LedgerChain
