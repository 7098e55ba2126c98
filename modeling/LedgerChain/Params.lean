import LedgerChain.Crypto

/-!
# Parameters of a chain and of a node

What all nodes of a network must agree on, and what each may choose for itself.
-/

namespace LedgerChain

/-- How blocks are sealed. -/
inductive SealRule where
  /-- By work of at least the given difficulty.  A seal carries its difficulty, which is the block's
  weight. -/
  | work (minDifficulty : UInt64)
  /-- By a signature of one of the given authorities.  In turns, only one of them may seal each
  height. -/
  | authority (authorities : List PublicKey) (roundRobin : Bool)
deriving DecidableEq

/-- What all nodes of a network agree on. -/
structure ConsensusParams where
  sealRule : SealRule
  /-- The most extrinsics in a block. -/
  maxBlockExtrinsics : Nat
  /-- The largest payload of an extrinsic, in bytes. -/
  maxExtrinsicSize : Nat
deriving DecidableEq

/-- What to do with a block whose parent is unknown. -/
inductive OrphanPolicy where
  /-- Keep it until the parent is known, up to a number of blocks. -/
  | hold (capacity : Nat)
  /-- Reject it. -/
  | drop
deriving DecidableEq

/-- What each node chooses for itself. -/
structure RunParams where
  /-- How far below the canonical tip blocks become final. -/
  finalityDepth : Nat := 32
  /-- Switches that retract more blocks than this are worth a warning; they happen all the same. -/
  maxReorgDepth : Nat := 1024
  orphanPolicy : OrphanPolicy := .hold 256
  /-- How many identifiers of invalid blocks are remembered. -/
  invalidCacheSize : Nat := 1024
deriving DecidableEq

/-- The parameters a node runs with. -/
structure Params where
  consensus : ConsensusParams
  run : RunParams := {}
deriving DecidableEq

end LedgerChain
