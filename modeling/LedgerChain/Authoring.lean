import LedgerChain.ChainError
import LedgerChain.Execution
import LedgerChain.ForkChoice
import LedgerChain.Sealing.Engine

/-!
# Making blocks

A candidate is built on a parent from the extrinsics that apply there, and completed by a seal.
-/

namespace LedgerChain

/-- The settings for making blocks. -/
structure AuthoringConfig where
  /-- The most extrinsics to pull from the pool for a block. -/
  maxExtrinsics : Nat := 100
  /-- How long a sealing attempt may take, in milliseconds; zero for no limit. -/
  sealTimeout : Nat := 10000
  /-- How many attempts are made before giving up. -/
  maxAttempts : Nat := 3
  /-- The difficulty to seal at, if above the minimum. -/
  workDifficulty : Option UInt64 := none
  /-- Whether blocks without extrinsics are made. -/
  allowEmptyBlocks : Bool := true
  /-- The key to sign with. -/
  authoringKey : Option SecretKey := none
deriving DecidableEq

/-- Why no block was made. -/
inductive AuthoringError where
  | nothingToAuthor
  | tooManyAttempts (attempts : Nat)
  | sealFailed (cause : SealError)
  | chain (cause : ChainError)
deriving DecidableEq

namespace AuthoringError

/-- The wording of an authoring error. -/
def message : AuthoringError → String
  | nothingToAuthor => "no extrinsics to include and empty blocks disabled"
  | tooManyAttempts attempts => s!"gave up after {attempts} attempts"
  | sealFailed cause => s!"seal: {cause.message}"
  | chain cause => s!"chain: {cause.message}"

/-- Whether trying again later could work. -/
def isRetryable : AuthoringError → Bool
  | nothingToAuthor | tooManyAttempts _ => true
  | sealFailed cause => cause.isRetryable
  | chain _ => false

end AuthoringError

/-- An unsealed block. -/
structure Candidate where
  template : HeaderTemplate
  extrinsics : List Extrinsic
  /-- The state after the block. -/
  state : State
deriving DecidableEq

namespace Candidate

variable [Crypto]

/-- Builds a candidate on a parent, and tells which extrinsics were left out since they do not
apply. -/
def prepare (parent : ChainTip) (xs : List Extrinsic) :
    Candidate × List (Extrinsic × ExtrinsicError) :=
  let selection := Execution.select parent.state xs
  let template : HeaderTemplate := {
    parent := parent.id
    height := parent.header.height + 1
    stateDigest := selection.output.stateDigest
    extrinsicsDigest := selection.output.extrinsicsDigest }
  (⟨template, selection.included, selection.output.state⟩, selection.excluded)

/-- Completes a candidate with a seal. -/
def complete (engine : Engine) (c : Candidate) (parent : ChainTip) (ctx : SealContext) :
    Except SealError ChainTip :=
  match engine.produce c.template parent.header c.template.stateDigest ctx with
  | .error e => .error e
  | .ok mark =>
    let header := c.template.complete mark
    match engine.weight header with
    | .error e => .error e
    | .ok weight => .ok ⟨⟨header, c.extrinsics⟩, c.state, weight⟩

end Candidate

/-- A block that was made, and what became of it. -/
structure AuthoredBlock where
  block : Block
  outcome : Outcome
  /-- The extrinsics that were pulled but do not apply.  They are dropped. -/
  excluded : List (ExtrinsicId × ExtrinsicError)
deriving DecidableEq

end LedgerChain
