import LedgerChain.Config.Decode

/-!
# Writing settings as documents

Every group of settings is written with all of its fields, in a form that can be read again.
-/

namespace LedgerChain

/-- Writes a sealing rule. -/
def SealRule.toDocument : SealRule → Document
  | work minDifficulty => .ofFields
    [("work_threshold", .ofFields [("min_difficulty", .ofNat minDifficulty.toNat)])]
  | authority authorities roundRobin => .ofFields
    [("authority", .ofFields [
      ("authorities", .ofList .ofBuffer authorities), ("round_robin", .bool roundRobin)])]

/-- Writes the consensus parameters. -/
def ConsensusParams.toDocument (p : ConsensusParams) : Document := .ofFields [
  ("seal_rule", p.sealRule.toDocument),
  ("max_block_extrinsics", .ofNat p.maxBlockExtrinsics),
  ("max_extrinsic_size", .ofNat p.maxExtrinsicSize)]

/-- Writes what to do with orphans. -/
def OrphanPolicy.toDocument : OrphanPolicy → Document
  | hold capacity => .ofFields [("hold", .ofFields [("capacity", .ofNat capacity)])]
  | drop => .text "drop"

/-- Writes the parameters of a single node. -/
def RunParams.toDocument (p : RunParams) : Document := .ofFields [
  ("finality_depth", .ofNat p.finalityDepth),
  ("max_reorg_depth", .ofNat p.maxReorgDepth),
  ("orphan_policy", p.orphanPolicy.toDocument),
  ("invalid_cache_size", .ofNat p.invalidCacheSize)]

/-- Writes all parameters. -/
def Params.toDocument (p : Params) : Document := .ofFields [
  ("consensus", p.consensus.toDocument),
  ("run", p.run.toDocument)]

/-- Writes the settings for making blocks. -/
def AuthoringConfig.toDocument (c : AuthoringConfig) : Document := .ofFields [
  ("max_extrinsics", .ofNat c.maxExtrinsics),
  ("seal_timeout_ms", .ofNat c.sealTimeout),
  ("max_attempts", .ofNat c.maxAttempts),
  ("work_difficulty", .ofOption (fun d => .ofNat d.toNat) c.workDifficulty),
  ("allow_empty_blocks", .bool c.allowEmptyBlocks),
  ("authoring_key", .ofOption .ofBuffer c.authoringKey)]

/-- Writes the limits of a pool. -/
def MempoolConfig.toDocument (c : MempoolConfig) : Document := .ofFields [
  ("capacity", .ofNat c.capacity),
  ("min_priority", .ofNat c.minPriority.toNat),
  ("max_extrinsic_size", .ofNat c.maxExtrinsicSize)]

end LedgerChain
