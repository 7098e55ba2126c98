import LedgerChain.Store
import LedgerChain.Tree

/-!
# Failures of the chain

What can go wrong with the chain of blocks itself, as opposed to a block being bad.
-/

namespace LedgerChain

/-- What went wrong with the chain of blocks. -/
inductive ChainError where
  | missingBlock (block : BlockId)
  | missingState (block : BlockId)
  | noReorg (source target : BlockId)
  | tree (cause : TreeError)
  | store (cause : StoreError)
deriving DecidableEq

/-- The wording of a failure. -/
def ChainError.message : ChainError → String
  | missingBlock block => s!"block {block} missing from database"
  | missingState block => s!"state for block {block} missing from database"
  | noReorg source target => s!"unable to find reorg {source} -> {target}"
  | tree cause => s!"chaintip: {cause.message}"
  | store cause => s!"db: {cause.message}"

end LedgerChain
