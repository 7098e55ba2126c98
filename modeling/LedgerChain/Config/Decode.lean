import LedgerChain.Authoring
import LedgerChain.Document
import LedgerChain.Mempool

/-!
# Reading settings from documents

How each group of settings is written.  The names of the fields are those that operators use in
their files.
-/

namespace LedgerChain

/-- Reads a sealing rule. -/
def SealRule.ofDocument? (d : Document) : Option SealRule := do
  let c ← d.choice?
  if c.name = "work_threshold" then do
    let f ← c.fields? ["min_difficulty"]
    pure (.work (← f.required 0 "min_difficulty" Document.word64?))
  else if c.name = "authority" then do
    let f ← c.fields? ["authorities", "round_robin"]
    let authorities ← f.required 0 "authorities" (Document.list? Document.buffer?)
    let roundRobin ← f.optional 1 "round_robin" Document.bool? false
    pure (.authority authorities roundRobin)
  else none

/-- Reads the consensus parameters. -/
def ConsensusParams.ofDocument? (d : Document) : Option ConsensusParams := do
  let f ← d.fields? 3
  let sealRule ← f.required 0 "seal_rule" SealRule.ofDocument?
  let maxBlockExtrinsics ← f.required 1 "max_block_extrinsics" Document.nat32?
  let maxExtrinsicSize ← f.required 2 "max_extrinsic_size" Document.nat32?
  pure { sealRule, maxBlockExtrinsics, maxExtrinsicSize }

/-- Reads what to do with orphans. -/
def OrphanPolicy.ofDocument? (d : Document) : Option OrphanPolicy := do
  let c ← d.choice?
  if c.name = "hold" then do
    let f ← c.fields? ["capacity"]
    pure (.hold (← f.required 0 "capacity" Document.nat64?))
  else if c.name = "drop" then
    if c.isBare then some .drop else none
  else none

/-- Reads the parameters of a single node. -/
def RunParams.ofDocument? (d : Document) : Option RunParams := do
  let f ← d.fields? 4
  let base : RunParams := {}
  let finalityDepth ← f.optional 0 "finality_depth" Document.nat64? base.finalityDepth
  let maxReorgDepth ← f.optional 1 "max_reorg_depth" Document.nat64? base.maxReorgDepth
  let orphanPolicy ← f.optional 2 "orphan_policy" OrphanPolicy.ofDocument? base.orphanPolicy
  let invalidCacheSize ← f.optional 3 "invalid_cache_size" Document.nat64? base.invalidCacheSize
  pure { finalityDepth, maxReorgDepth, orphanPolicy, invalidCacheSize }

/-- Reads all parameters. -/
def Params.ofDocument? (d : Document) : Option Params := do
  let f ← d.fields? 2
  let consensus ← f.required 0 "consensus" ConsensusParams.ofDocument?
  let run ← f.optional 1 "run" RunParams.ofDocument? {}
  pure { consensus, run }

/-- Reads the settings for making blocks. -/
def AuthoringConfig.ofDocument? (d : Document) : Option AuthoringConfig := do
  let f ← d.fields? 6
  let base : AuthoringConfig := {}
  let maxExtrinsics ← f.optional 0 "max_extrinsics" Document.nat64? base.maxExtrinsics
  let sealTimeout ← f.optional 1 "seal_timeout_ms" Document.nat64? base.sealTimeout
  let maxAttempts ← f.optional 2 "max_attempts" Document.nat32? base.maxAttempts
  let workDifficulty ←
    f.optional 3 "work_difficulty" (Document.nullable? Document.word64?) base.workDifficulty
  let allowEmptyBlocks ← f.optional 4 "allow_empty_blocks" Document.bool? base.allowEmptyBlocks
  let authoringKey ←
    f.optional 5 "authoring_key" (Document.nullable? Document.buffer?) base.authoringKey
  pure { maxExtrinsics, sealTimeout, maxAttempts, workDifficulty, allowEmptyBlocks, authoringKey }

/-- Reads the limits of a pool. -/
def MempoolConfig.ofDocument? (d : Document) : Option MempoolConfig := do
  let f ← d.fields? 3
  let base : MempoolConfig := {}
  let capacity ← f.optional 0 "capacity" Document.nat64? base.capacity
  let minPriority ← f.optional 1 "min_priority" Document.word64? base.minPriority
  let maxExtrinsicSize ← f.optional 2 "max_extrinsic_size" Document.nat64? base.maxExtrinsicSize
  pure { capacity, minPriority, maxExtrinsicSize }

end LedgerChain
