import LedgerChain.Execution
import LedgerChain.Sealing.Engine
import LedgerChain.Store

/-!
# Genesis

The first block of a chain lies on no other, orders no extrinsics and carries an empty seal.  It is
trusted, never validated.
-/

namespace LedgerChain

namespace Genesis

variable [Crypto]

/-- The genesis block over an initial state. -/
def tip (params : Params) (initial : State) : ChainTip :=
  let template : HeaderTemplate := {
    parent := .null
    height := 0
    stateDigest := initial.digest
    extrinsicsDigest := extrinsicsDigest [] }
  let mark : Seal := ⟨(Engine.ofRule params.consensus.sealRule).kind, []⟩
  ⟨⟨template.complete mark, []⟩, initial, 0⟩

/-- Stores the genesis block and points both pointers at it.  What was written before a failure
stays written. -/
def write (params : Params) (initial : State) (store : Store) :
    Except StoreError ChainTip × Store :=
  let genesis := tip params initial
  match store.put genesis.block genesis.state with
  | .error e => (.error e, store)
  | .ok stored =>
    match stored.setPointer .canonical genesis.id with
    | .error e => (.error e, stored)
    | .ok pointed =>
      match pointed.setPointer .finalized genesis.id with
      | .error e => (.error e, pointed)
      | .ok done =>
        match done.flush with
        | .error e => (.error e, done)
        | .ok () => (.ok genesis, done)

end Genesis

end LedgerChain
