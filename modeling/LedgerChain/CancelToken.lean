/-!
# Cancel tokens

A token stands for a flag that tells whoever works under it to stop.  Copies of a token share its
flag.  The flags are kept in a row, and a token is a place in it.
-/

namespace LedgerChain

/-- The place of a flag. -/
structure CancelToken where
  place : Nat
deriving DecidableEq

/-- The flags of all tokens made so far. -/
structure CancelFlags where
  /-- Whether each flag is set. -/
  flags : List Bool := []
deriving DecidableEq

namespace CancelFlags

/-- A new token, with its flag not set. -/
def fresh (f : CancelFlags) : CancelToken × CancelFlags := (⟨f.flags.length⟩, ⟨f.flags ++ [false]⟩)

/-- Sets the flag of a token. -/
def cancel (f : CancelFlags) (token : CancelToken) : CancelFlags := ⟨f.flags.set token.place true⟩

/-- Whether the flag of a token is set. -/
def isCancelled (f : CancelFlags) (token : CancelToken) : Bool := f.flags.getD token.place false

end CancelFlags

end LedgerChain
