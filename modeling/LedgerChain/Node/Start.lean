import LedgerChain.Genesis
import LedgerChain.Node

/-!
# Starting a node

A node starts from what is in its store.  An empty store gets the genesis block first.  Everything
stored above the finalized block was validated before it was written, and is attached again level by
level; blocks of dropped branches find no parent in the tree and are left out.  The canonical tip is
chosen anew, and its pointer repaired if it is out of date.
-/

namespace LedgerChain

/-- Why a node cannot start. -/
inductive StartError where
  | chain (cause : ChainError)
  | store (cause : StoreError)
  | sealing (cause : SealError)
  | tree (cause : TreeError)
deriving DecidableEq

/-- The wording of a start error. -/
def StartError.message : StartError → String
  | chain cause => cause.message
  | store cause => cause.message
  | sealing cause => cause.message
  | tree cause => cause.message

namespace Store

/-- A stored block with its state, its weight still to be determined. -/
def load (s : Store) (id : BlockId) : Except ChainError ChainTip :=
  match s.getBlock id with
  | .error e => .error (.store e)
  | .ok none => .error (.missingBlock id)
  | .ok (some block) =>
    match s.getState id with
    | .error e => .error (.store e)
    | .ok none => .error (.missingState id)
    | .ok (some state) => .ok ⟨block, state, 0⟩

end Store

namespace Node

variable [Crypto]

/-- Attaches a stored block, if its parent is in the tree. -/
def attachStored (engine : Engine) (store : Store) (t : ChainTree) (id : BlockId) :
    Except StartError ChainTree :=
  match store.load id with
  | .error e => .error (.chain e)
  | .ok tip =>
    if !t.contains tip.parent then .ok t
    else
      match engine.weight tip.header with
      | .error e => .error (.sealing e)
      | .ok weight =>
        match t.attach { tip with weight } with
        | .error e => .error (.tree e)
        | .ok (_, t') => .ok t'

/-- Attaches stored blocks in order. -/
def attachAll (engine : Engine) (store : Store) :
    ChainTree → List BlockId → Except StartError ChainTree
  | t, [] => .ok t
  | t, id :: rest =>
    match attachStored engine store t id with
    | .error e => .error e
    | .ok t' => attachAll engine store t' rest

/-- Attaches the stored blocks of the given height and of those above it, up to the first height
without blocks, for at most the given number of heights. -/
def attachLevels (engine : Engine) (store : Store) :
    (levels height : Nat) → ChainTree → Except StartError ChainTree
  | 0, _, t => .ok t
  | levels + 1, height, t =>
    match store.getLevel height with
    | .error e => .error (.store e)
    | .ok [] => .ok t
    | .ok ids =>
      match attachAll engine store t ids with
      | .error e => .error e
      | .ok t' => attachLevels engine store levels (height + 1) t'

/-- The tree of the stored blocks above a finalized one.  There are no more levels than rows in the
store's index. -/
def restoreTree (engine : Engine) (store : Store) (root : ChainTip) :
    Except StartError ChainTree :=
  attachLevels engine store (store.levels.size + 1) (root.height + 1) (.ofRoot root 0)

/-- The finalized block of a store, which is genesis for an empty one. -/
def loadRoot (params : Params) (initial : State) (store : Store) :
    Except StartError ChainTip × Store :=
  match store.getPointer .finalized with
  | .error e => (.error (.store e), store)
  | .ok (some id) =>
    match store.load id with
    | .error e => (.error (.chain e), store)
    | .ok tip => (.ok tip, store)
  | .ok none =>
    match Genesis.write params initial store with
    | (.error e, store') => (.error (.store e), store')
    | (.ok tip, store') => (.ok tip, store')

/-- Points the canonical pointer at the canonical tip, if it does not point there. -/
def repairPointer (store : Store) (best : BlockId) : Except StoreError Store :=
  match store.getPointer .canonical with
  | .error e => .error e
  | .ok stored => if stored = some best then .ok store else store.setPointer .canonical best

/-- Starts a node on a store.  Also answers with the store, which a failed start may have changed. -/
def start (params : Params) (store : Store) (pool : Mempool) (initial : State) :
    Except StartError Node × Store :=
  match loadRoot params initial store with
  | (.error e, store₁) => (.error e, store₁)
  | (.ok root, store₁) =>
    match restoreTree (.ofRule params.consensus.sealRule) store₁ root with
    | .error e => (.error e, store₁)
    | .ok t =>
      let f := ForkChoice.ofTree params.run.finalityDepth t
      match repairPointer store₁ f.best with
      | .error e => (.error (.store e), store₁)
      | .ok store₂ => (.ok (.ofForkChoice params store₂ pool f), store₂)

end Node

end LedgerChain
