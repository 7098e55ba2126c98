import LedgerChain.Header

/-!
# Refusals of a sealing rule

Why a seal is not accepted, or could not be produced.
-/

namespace LedgerChain

/-- Why a seal is not accepted, or could not be produced. -/
inductive SealError where
  | wrongEngine (found expected : SealKind)
  | malformedSeal (cause : WireError)
  | parentMismatch (claimed actual : BlockId)
  | heightMismatch (height parentHeight : Nat)
  | insufficientDifficulty (difficulty minimum : UInt64)
  | thresholdNotMet (difficulty : UInt64)
  | unknownAuthority (index : UInt32)
  | wrongAuthority (index : UInt32) (height : Nat) (expected : Nat)
  | badSignature (index : UInt32)
  | missingAuthoringKey
  | notAnAuthority
  | notOurTurn (height : Nat)
  | sealCancelled
  | sealTimeout
  | noncesExhausted
deriving DecidableEq

namespace SealError

/-- The wording of a refusal. -/
def message : SealError → String
  | wrongEngine found expected => s!"seal from engine {found.name}, expected {expected.name}"
  | malformedSeal cause => s!"malformed seal: {cause.message}"
  | parentMismatch claimed actual =>
    s!"header parent {claimed} does not match parent header {actual}"
  | heightMismatch height parentHeight =>
    s!"header height {height} does not follow parent height {parentHeight}"
  | insufficientDifficulty difficulty minimum =>
    s!"seal difficulty {difficulty.toNat} below minimum {minimum.toNat}"
  | thresholdNotMet difficulty => s!"seal hash does not meet difficulty {difficulty.toNat}"
  | unknownAuthority index => s!"unknown authority index {index.toNat}"
  | wrongAuthority index height expected =>
    s!"authority {index.toNat} sealed block at height {height}, expected authority {expected}"
  | badSignature index => s!"bad signature from authority {index.toNat}"
  | missingAuthoringKey => "no authoring key available"
  | notAnAuthority => "authoring key is not one of the authorities"
  | notOurTurn height => s!"not our turn to seal height {height}"
  | sealCancelled => "seal search cancelled"
  | sealTimeout => "seal search timed out"
  | noncesExhausted => "seal search exhausted nonces"

/-- Whether sealing again later could work. -/
def isRetryable : SealError → Bool
  | sealCancelled | sealTimeout | noncesExhausted | notOurTurn _ => true
  | _ => false

end SealError

end LedgerChain
