import LedgerChain.Authoring
import LedgerChain.CancelToken
import LedgerChain.Mempool
import LedgerChain.OrphanPool
import LedgerChain.RecentIds
import LedgerChain.Validation

/-!
# Nodes

A node ties fork choice, storage, the pool of extrinsics and the orphans together.  Each of its
operations is a function from the node before to an answer and the node after; a failing operation
also says what the node is like after it.
-/

namespace LedgerChain

/-- What a node publishes about its canonical chain. -/
structure ChainStatus where
  /-- The canonical tip. -/
  tip : BlockId
  height : Nat
  /-- The cumulative weight of the canonical tip. -/
  weight : Nat
  /-- The last finalized block. -/
  finalized : BlockId
deriving DecidableEq

/-- The status of a fork choice. -/
def ForkChoice.status (f : ForkChoice) : ChainStatus :=
  ⟨f.best, f.bestHeight, f.bestWeight, f.tree.root⟩

/-- A node of the network. -/
structure Node where
  params : Params
  store : Store
  pool : Mempool
  forkChoice : ForkChoice
  /-- The orphans, unless the node drops them. -/
  orphans : Option OrphanPool
  /-- Blocks that were found invalid, so that they need not be checked again. -/
  invalid : RecentIds
  /-- The last published status. -/
  status : ChainStatus
  /-- How often a status was published. -/
  publications : Nat := 0
  /-- The last finalized block whose pointer was written. -/
  storedFinalized : BlockId
  /-- The flags of the sealing attempts. -/
  flags : CancelFlags := {}
  /-- The sealing attempts in progress. -/
  attempts : List CancelToken := []

namespace Node

/-- The sealing rule at work. -/
def engine (n : Node) : Engine := .ofRule n.params.consensus.sealRule

/-- A node at the start of a session. -/
def ofForkChoice (params : Params) (store : Store) (pool : Mempool) (f : ForkChoice) : Node where
  params := params
  store := store
  pool := pool
  forkChoice := f
  orphans :=
    match params.run.orphanPolicy with
    | .hold capacity => some { capacity }
    | .drop => none
  invalid := .ofCapacity params.run.invalidCacheSize
  status := f.status
  storedFinalized := f.tree.root

/-- The number of orphans kept. -/
def orphanCount (n : Node) : Nat := (n.orphans.map OrphanPool.size).getD 0

/-- Whether a block is in the tree. -/
def hasSeen (n : Node) (id : BlockId) : Bool := n.forkChoice.tree.contains id

/-- The canonical tip with its state. -/
def canonicalTip? (n : Node) : Option ChainTip := n.forkChoice.bestChainTip?

/-- Publishes the status of the fork choice. -/
def publish (n : Node) : Node :=
  { n with status := n.forkChoice.status, publications := n.publications + 1 }

/-- Hands an extrinsic to the pool.  Answers whether it was taken. -/
def submitExtrinsic [Crypto] (n : Node) (x : Extrinsic) : Bool × Node :=
  match n.pool.submit x with
  | .error _ => (false, n)
  | .ok pool => (true, { n with pool })

/-- Cancels all sealing attempts in progress, since their parent is stale. -/
def cancelAttempts (n : Node) : Node :=
  { n with flags := n.attempts.foldl CancelFlags.cancel n.flags, attempts := [] }

/-- Writes the finalized pointer if it moved since it was last written. -/
def storeFinalized (n : Node) : Except StoreError Node :=
  let root := n.forkChoice.tree.root
  if n.storedFinalized = root then .ok n
  else
    match n.store.setPointer .finalized root with
    | .error e => .error e
    | .ok store => .ok { n with store, storedFinalized := root }

/-! ### Deciding on a validated block -/

/-- The blocks that left and joined the canonical chain. -/
structure PoolUpdate where
  /-- The blocks that left, top first. -/
  retract : List Block := []
  /-- The blocks that joined, bottom first. -/
  apply : List Block := []
deriving DecidableEq

/-- What an outcome means for the pool, if the outcome moved the canonical tip to the given block
or beyond. -/
def PoolUpdate.ofOutcome (block : Block) : Outcome → PoolUpdate
  | .extended => ⟨[], [block]⟩
  | .switched retract apply => ⟨retract, apply⟩
  | .ignored _ => ⟨[], []⟩

variable [Crypto]

/-- Drops the extrinsics that became canonical from the pool, and puts back the ones that only were
in blocks which left, oldest block first. -/
def updatePool (n : Node) (update : PoolUpdate) : Node :=
  if update.apply.isEmpty then n
  else
    let applied := (update.apply.flatMap Block.extrinsics).map Extrinsic.id
    let returned := (update.retract.reverse.flatMap Block.extrinsics).filter fun x => x.id ∉ applied
    { n with pool := ((n.pool.prune applied).giveBack returned).2 }

/-- Moves the root up behind the canonical tip, publishes the status and writes the finalized
pointer.  A pointer that cannot be written now is written with a later decision. -/
def settle (n : Node) : Node :=
  match n.forkChoice.advanceRoot with
  | .error _ => n.publish
  | .ok (_, f) =>
    let published := publish { n with forkChoice := f }
    match published.storeFinalized with
    | .error _ => published
    | .ok stored => stored

/-- Runs fork choice on a stored block and writes the canonical pointer.  If that fails, the
canonical tip goes back to where it was. -/
def decide (n : Node) (tip : ChainTip) : Except ChainError (Outcome × PoolUpdate) × Node :=
  let previous := n.forkChoice.best
  match n.forkChoice.consider tip with
  | (.error e, f) => (.error e, { n with forkChoice := f })
  | (.ok outcome, f) =>
    let considered := { n with forkChoice := f }
    if !outcome.changedCanonical then (.ok (outcome, {}), considered)
    else
      match n.store.setPointer .canonical f.best with
      | .error e =>
        match f.rollback previous with
        | .error e' => (.error e', considered)
        | .ok back => (.error (.store e), { n with forkChoice := back })
      | .ok store =>
        (.ok (outcome, .ofOutcome tip.block outcome),
          settle (cancelAttempts { considered with store }))

/-- Stores a validated block, decides on it and brings the pool up to date. -/
def submitTip (n : Node) (tip : ChainTip) : Except ChainError Outcome × Node :=
  match n.store.put tip.block tip.state with
  | .error e => (.error (.store e), n)
  | .ok store =>
    match decide { n with store } tip with
    | (.error e, n') => (.error e, n')
    | (.ok (outcome, update), n') => (.ok outcome, n'.updatePool update)

/-- Makes sure that both pointers are stored, and cancels all sealing. -/
def shutdown (n : Node) : Except ChainError Unit × Node :=
  let n := n.cancelAttempts
  match n.store.setPointer .canonical n.forkChoice.best with
  | .error e => (.error (.store e), n)
  | .ok store =>
    let n := { n with store }
    match n.storeFinalized with
    | .error e => (.error (.store e), n)
    | .ok n =>
      match n.store.flush with
      | .error e => (.error (.store e), n)
      | .ok () => (.ok (), n)

end Node

end LedgerChain
