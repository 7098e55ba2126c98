import LedgerChain.Document
import LedgerChain.Mempool
import LedgerChain.Node.Import
import LedgerChain.Node.Start

/-!
# Failures as documents

What a node tells about a failure: a name by which programs tell failures apart, a text for people,
and further facts.  The name of a failure with a cause ends in the name of the cause.
-/

namespace LedgerChain

/-- Failures that a node can tell about. -/
class Failure (ε : Type) where
  /-- The name by which programs tell failures apart. -/
  name : ε → String
  /-- The text for people. -/
  message : ε → String
  /-- Further facts. -/
  details : ε → List (String × Document)

namespace Failure

/-- No further facts. -/
def bare {ε : Type} (_ : ε) : List (String × Document) := []

/-- What is told about a failure. -/
def toDocument {ε : Type} [Failure ε] (e : ε) : Document :=
  .ofFields ([("error", .text (name e)), ("message", .text (message e))] ++ details e)

/-- A result or the failure in its place. -/
def orElse {ε α : Type} [Failure ε] (result : Except ε α) (write : α → Document) : Document :=
  match result with
  | .error e => toDocument e
  | .ok a => write a

instance : Failure Hex.Error := ⟨fun _ => "BufParseError", Buffer.parseMessage, bare⟩

instance : Failure Buffer.LengthError := ⟨fun _ => "BufLenError", Buffer.LengthError.message, bare⟩

instance : Failure WireError := ⟨fun _ => "Borsh", WireError.message, bare⟩

instance : Failure BlockDecodeError where
  name
    | .malformed cause => name cause
    | .unsupportedVersion _ => "UnsupportedVersion"
  message := BlockDecodeError.message
  details := bare

instance : Failure ExtrinsicError where
  name
    | .invalidPayload => "InvalidPayload"
    | .emptyKey => "EmptyKey"
    | .reservedKey => "ReservedKey"
    | .valueTooLarge _ _ => "ValueTooLarge"
    | .missingKey => "MissingKey"
    | .zeroAmount => "ZeroAmount"
    | .insufficientBalance _ _ _ => "InsufficientBalance"
    | .balanceOverflow _ => "BalanceOverflow"
    | .malformedBalance _ => "MalformedBalance"
  message := ExtrinsicError.message
  details := bare

instance : Failure TransitionError where
  name e := name e.cause
  message := TransitionError.message
  details e := [("index", .ofNat e.index), ("id", .ofBuffer e.id.digest)]

instance : Failure SealError where
  name
    | .wrongEngine _ _ => "WrongEngine"
    | .malformedSeal _ => "MalformedSeal"
    | .parentMismatch _ _ => "ParentMismatch"
    | .heightMismatch _ _ => "HeightMismatch"
    | .insufficientDifficulty _ _ => "InsufficientDifficulty"
    | .thresholdNotMet _ => "ThresholdNotMet"
    | .unknownAuthority _ => "UnknownAuthority"
    | .wrongAuthority _ _ _ => "WrongAuthority"
    | .badSignature _ => "BadSignature"
    | .missingAuthoringKey => "MissingAuthoringKey"
    | .notAnAuthority => "NotAnAuthority"
    | .notOurTurn _ => "NotOurTurn"
    | .sealCancelled => "SealCancelled"
    | .sealTimeout => "SealTimeout"
    | .noncesExhausted => "NoncesExhausted"
  message := SealError.message
  details e := [("retryable", .bool e.isRetryable)]

instance : Failure TreeError where
  name
    | .missingParent _ _ => "AttachMissingParent"
    | .badHeight _ _ _ => "AttachBadHeight"
    | .missingBlock _ => "MissingBlock"
    | .notDescendant _ => "NotDescendant"
  message := TreeError.message
  details := bare

instance : Failure StoreError where
  name
    | .unknownBlock _ _ => "UnknownBlock"
    | .failed _ => "StorageIo"
  message := StoreError.message
  details := bare

instance : Failure ChainError where
  name
    | .missingBlock _ => "MissingBlock"
    | .missingState _ => "MissingBlockState"
    | .noReorg _ _ => "UnableToFindReorg"
    | .tree cause => "ChainTree/" ++ name cause
    | .store cause => "Db/" ++ name cause
  message := ChainError.message
  details := bare

instance : Failure StartError where
  name
    | .chain cause => name cause
    | .store cause => "Db/" ++ name cause
    | .sealing cause => "Consensus/" ++ name cause
    | .tree cause => "ChainTree/" ++ name cause
  message := StartError.message
  details := bare

instance : Failure ImportError where
  name
    | .malformed _ => "MalformedBlock"
    | .unknownParent _ => "UnknownParent"
    | .knownInvalid => "KnownInvalid"
    | .consensus cause => "ConsensusRejected/" ++ name cause
    | .transition cause => "StateTransition/" ++ name cause
    | .digestMismatch kind _ _ => "DigestMismatch/" ++ kind.name
  message := ImportError.message
  details e := [("stage", .text e.stage.name), ("invalid", .bool e.isBlockInvalid)]

instance : Failure AuthoringError where
  name
    | .nothingToAuthor => "NothingToAuthor"
    | .tooManyAttempts _ => "TooManyAttempts"
    | .sealFailed cause => "Seal/" ++ name cause
    | .chain cause => "Chain/" ++ name cause
  message := AuthoringError.message
  details e := [("retryable", .bool e.isRetryable)]

instance : Failure MempoolError where
  name
    | .alreadyKnown _ => "AlreadyKnown"
    | .priorityTooLow _ _ => "PriorityTooLow"
    | .poolFull _ _ => "PoolFull"
    | .tooLarge _ _ => "TooLarge"
  message := MempoolError.message
  details := bare

end Failure

end LedgerChain
