import LedgerChain.Execution
import LedgerChain.ForkChoice
import LedgerChain.Sealing.Engine

/-!
# Validation of blocks

A block from outside is checked in stages: first its shape, then its seal, then what it does to the
state after its parent.  Both digests in the header are recomputed, never taken on trust.

Some refusals prove the header bad for good, and some do not: a body that does not match the header
may have been swapped on the way.
-/

namespace LedgerChain

/-- The stages a block goes through. -/
inductive ImportStage where
  | received
  | consensusChecking
  | stateApplying
  | accepted
  | forkChoiceSubmitted
  | rejected
deriving DecidableEq

namespace ImportStage

/-- The name of a stage. -/
def name : ImportStage → String
  | received => "received"
  | consensusChecking => "consensus-checking"
  | stateApplying => "state-applying"
  | accepted => "accepted"
  | forkChoiceSubmitted => "fork-choice-submitted"
  | rejected => "rejected"

/-- All stages, in the order in which a block meets them. -/
def all : List ImportStage :=
  [received, consensusChecking, stateApplying, accepted, forkChoiceSubmitted, rejected]

end ImportStage

/-- What is wrong with the shape of a block. -/
inductive ShapeError where
  | undecodable (cause : BlockDecodeError)
  | unsupportedVersion (version : UInt16)
  | tooManyExtrinsics (count limit : Nat)
  | extrinsicTooLarge (index size limit : Nat)
  | genesis
  | wrongHeight (height parentHeight : Nat)
deriving DecidableEq

/-- The wording of a shape error. -/
def ShapeError.message : ShapeError → String
  | undecodable cause => cause.message
  | unsupportedVersion version => s!"unsupported encoding version {version.toNat}"
  | tooManyExtrinsics count limit => s!"{count} extrinsics, limit {limit}"
  | extrinsicTooLarge index size limit => s!"extrinsic {index} is {size} bytes, limit {limit}"
  | genesis => "not importing a genesis block"
  | wrongHeight height parentHeight => s!"height {height} on parent at height {parentHeight}"

/-- The two digests in a header. -/
inductive DigestKind where
  | extrinsics
  | state
deriving DecidableEq

/-- The name of a digest. -/
def DigestKind.name : DigestKind → String
  | extrinsics => "Extrinsics"
  | state => "State"

/-- Why a block is rejected.  Trying again is never worthwhile. -/
inductive ImportError where
  | malformed (cause : ShapeError)
  | unknownParent (parent : BlockId)
  | knownInvalid
  | consensus (cause : SealError)
  | transition (cause : TransitionError)
  | digestMismatch (kind : DigestKind) (claimed computed : Digest)
deriving DecidableEq

namespace ImportError

/-- The wording of a rejection. -/
def message : ImportError → String
  | malformed cause => s!"malformed block: {cause.message}"
  | unknownParent parent => s!"unknown parent {parent}"
  | knownInvalid => "block previously found invalid"
  | consensus cause => s!"consensus: {cause.message}"
  | transition cause => s!"state transition: {cause.message}"
  | digestMismatch kind claimed computed =>
    s!"{kind.name} digest mismatch (claimed {claimed}, computed {computed})"

/-- The stage at which a block is rejected. -/
def stage : ImportError → ImportStage
  | malformed _ | unknownParent _ | knownInvalid => .received
  | consensus _ => .consensusChecking
  | transition _ | digestMismatch _ _ _ => .stateApplying

/-- Whether the header itself is bad.  A body that does not match its header says nothing about the
header. -/
def isBlockInvalid : ImportError → Bool
  | consensus _ | transition _ => true
  | digestMismatch kind _ _ => kind = .state
  | malformed _ | unknownParent _ | knownInvalid => false

end ImportError

/-- The first extrinsic over a size limit, with its position counted from `index`. -/
def firstOversized (limit : Nat) : (index : Nat) → List Extrinsic → Option (Nat × Extrinsic)
  | _, [] => none
  | index, x :: xs =>
    if limit < x.size then some (index, x) else firstOversized limit (index + 1) xs

/-- Checks what can be checked of a block alone. -/
def Block.checkShape (b : Block) (params : ConsensusParams) : Except ShapeError Unit :=
  if b.header.version ≠ blockVersion then .error (.unsupportedVersion b.header.version)
  else if params.maxBlockExtrinsics < b.extrinsics.length then
    .error (.tooManyExtrinsics b.extrinsics.length params.maxBlockExtrinsics)
  else
    match firstOversized params.maxExtrinsicSize 0 b.extrinsics with
    | some (index, x) => .error (.extrinsicTooLarge index x.size params.maxExtrinsicSize)
    | none =>
      if b.height = 0 || b.parent.isNull then .error .genesis else .ok ()

/-- Checks a block on top of its parent: height, seal, weight, extrinsics digest, execution and
state digest, in this order.  No block is valid on a parent of the greatest height, where the sum
does not fit in 64 bits. -/
def validateBlock [Crypto] (engine : Engine) (b : Block) (parent : ChainTip) :
    Except ImportError ChainTip :=
  let h := b.header
  if b.height ≠ parent.height + 1 then .error (.malformed (.wrongHeight b.height parent.height))
  else
    match engine.validate h parent.header h.stateDigest with
    | .error e => .error (.consensus e)
    | .ok () =>
      match engine.weight h with
      | .error e => .error (.consensus e)
      | .ok weight =>
        let computed := b.computedExtrinsicsDigest
        if computed ≠ h.extrinsicsDigest then
          .error (.digestMismatch .extrinsics h.extrinsicsDigest computed)
        else
          match Execution.applyAll parent.state b.extrinsics with
          | .error e => .error (.transition e)
          | .ok output =>
            if output.stateDigest ≠ h.stateDigest then
              .error (.digestMismatch .state h.stateDigest output.stateDigest)
            else .ok ⟨b, output.state, weight⟩

end LedgerChain
