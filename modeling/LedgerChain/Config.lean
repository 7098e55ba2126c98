import LedgerChain.Config.Encode
import LedgerChain.Toml.Section

/-!
# The configuration of a node

A node reads its settings from a TOML file with a section for each group of them.  A file that can
be read may still hold values that would make the chain unusable, and these are refused too.
-/

namespace LedgerChain

/-- The configuration of a node. -/
structure Config where
  consensus : ConsensusParams
  run : RunParams := {}
  authoring : AuthoringConfig := {}
  pool : MempoolConfig := {}
deriving DecidableEq

/-- Values that would make the chain unusable. -/
inductive ConfigDefect where
  | zeroDifficulty
  | noAuthorities
  | noBlockExtrinsics
  | zeroFinalityDepth
  | zeroOrphanCapacity
  | zeroAttempts
  | poolAboveConsensus
deriving DecidableEq, Repr

/-- The wording of a defect. -/
def ConfigDefect.message : ConfigDefect → String
  | zeroDifficulty => "min_difficulty must be nonzero"
  | noAuthorities => "authority rule needs at least one authority"
  | noBlockExtrinsics => "max_block_extrinsics must be nonzero"
  | zeroFinalityDepth => "finality_depth must be nonzero"
  | zeroOrphanCapacity => "orphan capacity must be nonzero, use \"drop\" instead"
  | zeroAttempts => "authoring max_attempts must be nonzero"
  | poolAboveConsensus => "pool max_extrinsic_size above consensus limit"

/-- The defect of a sealing rule. -/
def SealRule.defect? : SealRule → Option ConfigDefect
  | work minDifficulty => if minDifficulty = 0 then some .zeroDifficulty else none
  | authority authorities _ => if authorities.isEmpty then some .noAuthorities else none

/-- Why a configuration cannot be used. -/
inductive ConfigError where
  /-- The file cannot be read as text. -/
  | unreadable
  /-- The text is not TOML, or does not hold the settings. -/
  | malformed
  | invalid (defect : ConfigDefect)
deriving DecidableEq

/-- The wording of a refusal. -/
def ConfigError.message : ConfigError → String
  | unreadable => "io: cannot be read as text"
  | malformed => "parse: not a configuration"
  | invalid defect => s!"invalid config: {defect.message}"

namespace Config

/-- The parameters that the chain runs with. -/
def params (c : Config) : Params := ⟨c.consensus, c.run⟩

/-- Reads a configuration. -/
def ofDocument? (d : Document) : Option Config := do
  let f ← d.fields? 4
  let consensus ← f.required 0 "consensus" ConsensusParams.ofDocument?
  let run ← f.optional 1 "run" RunParams.ofDocument? {}
  let authoring ← f.optional 2 "authoring" AuthoringConfig.ofDocument? {}
  let pool ← f.optional 3 "pool" MempoolConfig.ofDocument? {}
  pure { consensus, run, authoring, pool }

/-- Writes a configuration. -/
def toDocument (c : Config) : Document := .ofFields [
  ("consensus", c.consensus.toDocument),
  ("run", c.run.toDocument),
  ("authoring", c.authoring.toDocument),
  ("pool", c.pool.toDocument)]

/-- The first defect of a configuration. -/
def defect? (c : Config) : Option ConfigDefect :=
  match c.consensus.sealRule.defect? with
  | some defect => some defect
  | none =>
    if c.consensus.maxBlockExtrinsics = 0 then some .noBlockExtrinsics
    else if c.run.finalityDepth = 0 then some .zeroFinalityDepth
    else if c.run.orphanPolicy = .hold 0 then some .zeroOrphanCapacity
    else if c.authoring.maxAttempts = 0 then some .zeroAttempts
    else if c.consensus.maxExtrinsicSize < c.pool.maxExtrinsicSize then some .poolAboveConsensus
    else none

/-- Whether a configuration can be used. -/
def WellFormed (c : Config) : Prop := c.defect? = none

instance (c : Config) : Decidable c.WellFormed := inferInstanceAs (Decidable (c.defect? = none))

/-- Reads a configuration from TOML and checks it. -/
def ofToml (text : String) : Except ConfigError Config :=
  match (Toml.parse text).bind ofDocument? with
  | none => .error .malformed
  | some c =>
    match c.defect? with
    | some defect => .error (.invalid defect)
    | none => .ok c

/-- Reads a configuration from the content of a file, or from nothing if there is no file. -/
def ofFile : Option Bytes → Except ConfigError Config
  | none => .error .unreadable
  | some content =>
    match String.fromUTF8? ⟨content.toArray⟩ with
    | none => .error .unreadable
    | some text => ofToml text

end Config

end LedgerChain
