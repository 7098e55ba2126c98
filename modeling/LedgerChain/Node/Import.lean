import LedgerChain.Node

/-!
# Importing blocks

A block from outside is ignored if it is known, rejected if it was found invalid before or is
malformed, and otherwise looked at on top of its parent.  If the parent is unknown the block is
stale, or waits for the parent as an orphan.  A block that is accepted releases the orphans that
wait for it, and they are imported in turn.
-/

namespace LedgerChain

/-- What became of a block from outside. -/
inductive ImportResult where
  /-- The block is valid, and fork choice decided on it. -/
  | accepted (outcome : Outcome)
  /-- There is nothing to do with the block. -/
  | ignored (reason : IgnoreReason)
  /-- The block waits for its parent. -/
  | pendingParent
  /-- The block is refused. -/
  | rejected (cause : ImportError)
deriving DecidableEq

namespace ImportResult

/-- Whether the block was accepted. -/
def isAccepted : ImportResult → Bool
  | accepted _ => true
  | _ => false

/-- Whether the block was refused. -/
def isRejected : ImportResult → Bool
  | rejected _ => true
  | _ => false

/-- Whether the canonical tip moved. -/
def changedCanonical : ImportResult → Bool
  | accepted outcome => outcome.changedCanonical
  | _ => false

/-- The result for a valid block: one that fork choice had no use for was not accepted. -/
def ofOutcome : Outcome → ImportResult
  | .ignored .alreadyKnown => ignored .alreadyKnown
  | .ignored .stale => ignored .stale
  | outcome => accepted outcome

end ImportResult

namespace Node

/-- Refuses a block, and remembers it if its header is bad. -/
def reject (n : Node) (id : BlockId) (cause : ImportError) : ImportResult × Node :=
  (.rejected cause, if cause.isBlockInvalid then { n with invalid := n.invalid.note id } else n)

variable [Crypto]

/-- Keeps a block as an orphan, unless orphans are dropped. -/
def holdOrphan (n : Node) (b : Block) : ImportResult × Node :=
  match n.orphans with
  | none => (.rejected (.unknownParent b.parent), n)
  | some pool =>
    let (taken, pool') := pool.insert b
    if taken || pool'.contains b.id then (.pendingParent, { n with orphans := some pool' })
    else (.rejected (.unknownParent b.parent), { n with orphans := some pool' })

/-- Deals with a block whose parent is not in the tree.  If the parent is stored it was finalized
over or dropped, so the block is stale; so is any block that cannot be above the root.  Over a root
of the greatest height these are all blocks, although the sum does not fit in 64 bits there. -/
def importUnknownParent (n : Node) (b : Block) : Except ChainError ImportResult × Node :=
  if b.height ≤ n.forkChoice.tree.rootHeight + 1 then (.ok (.ignored .stale), n)
  else
    match n.store.getBlock b.parent with
    | .error e => (.error (.store e), n)
    | .ok (some _) => (.ok (.ignored .stale), n)
    | .ok none =>
      let (result, n') := n.holdOrphan b
      (.ok result, n')

/-- Imports a block whose parent is in the tree. -/
def importOnParent (n : Node) (b : Block) (parent : ChainTip) :
    Except ChainError ImportResult × Node :=
  match validateBlock n.engine b parent with
  | .error e =>
    let (result, n') := n.reject b.id e
    (.ok result, n')
  | .ok tip =>
    match n.submitTip tip with
    | (.error e, n') => (.error e, n')
    | (.ok outcome, n') => (.ok (.ofOutcome outcome), n')

/-- Imports a single block. -/
def importOne (n : Node) (b : Block) : Except ChainError ImportResult × Node :=
  if n.hasSeen b.id then (.ok (.ignored .alreadyKnown), n)
  else if n.invalid.contains b.id then (.ok (.rejected .knownInvalid), n)
  else
    match b.checkShape n.params.consensus with
    | .error e =>
      let (result, n') := n.reject b.id (.malformed e)
      (.ok result, n')
    | .ok () =>
      match n.forkChoice.tree.find? b.parent with
      | none => n.importUnknownParent b
      | some below => n.importOnParent b below.tip

/-- Imports orphans that were released together, in order, and answers with those that were
accepted.  A failure leaves out the ones after it. -/
def importReleased (n : Node) : List Block → Except ChainError (List BlockId) × Node
  | [] => (.ok [], n)
  | b :: rest =>
    match n.importOne b with
    | (.error e, n₁) => (.error e, n₁)
    | (.ok result, n₁) =>
      match importReleased n₁ rest with
      | (.error e, n₂) => (.error e, n₂)
      | (.ok accepted, n₂) => (.ok (if result.isAccepted then b.id :: accepted else accepted), n₂)

/-- The orphans that wait for a block, taken out of the pool. -/
def takeOrphans (n : Node) (parent : BlockId) : List Block × Node :=
  match n.orphans with
  | none => ([], n)
  | some pool =>
    let (released, pool') := pool.takeChildren parent
    (released, { n with orphans := some pool' })

/-- Releases the orphans that wait for the blocks on a stack, and then those that wait for the
accepted ones among them, for at most the given number of blocks. -/
def releaseFrom (n : Node) : (steps : Nat) → List BlockId → Except ChainError Unit × Node
  | 0, _ => (.ok (), n)
  | _ + 1, [] => (.ok (), n)
  | steps + 1, parent :: stack =>
    let (released, n₁) := n.takeOrphans parent
    match n₁.importReleased released with
    | (.error e, n₂) => (.error e, n₂)
    | (.ok accepted, n₂) => releaseFrom n₂ steps (accepted.reverse ++ stack)

/-- Releases the orphans that wait for a block, directly or through others.  Each step but the first
belongs to an orphan that was accepted, so there are no more steps than orphans and one. -/
def releaseOrphans (n : Node) (parent : BlockId) : Except ChainError Unit × Node :=
  n.releaseFrom (n.orphanCount + 1) [parent]

/-- Imports a block, and then the orphans that were waiting for it. -/
def importBlock (n : Node) (b : Block) : Except ChainError ImportResult × Node :=
  match n.importOne b with
  | (.error e, n₁) => (.error e, n₁)
  | (.ok result, n₁) =>
    if !result.isAccepted then (.ok result, n₁)
    else
      match n₁.releaseOrphans b.id with
      | (.error e, n₂) => (.error e, n₂)
      | (.ok (), n₂) => (.ok result, n₂)

/-- Imports a block from its binary form. -/
def importEncoded (n : Node) (input : Bytes) : Except ChainError ImportResult × Node :=
  match Block.decode input with
  | .error e => (.ok (.rejected (.malformed (.undecodable e))), n)
  | .ok b => n.importBlock b

end Node

end LedgerChain
