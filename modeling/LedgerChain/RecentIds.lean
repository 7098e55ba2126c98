import LedgerChain.Ids

/-!
# A bounded memory of blocks

Remembers the identifiers of a limited number of blocks and forgets the one that was noted longest
ago.
-/

namespace LedgerChain

/-- The most recently noted blocks. -/
structure RecentIds where
  /-- The most blocks to remember. -/
  capacity : Nat
  /-- The blocks, the latest first. -/
  ids : List BlockId := []
deriving DecidableEq

namespace RecentIds

/-- A memory for the given number of blocks, and for at least one. -/
def ofCapacity (capacity : Nat) : RecentIds := ⟨max capacity 1, []⟩

/-- Whether a block is remembered. -/
def contains (r : RecentIds) (id : BlockId) : Bool := id ∈ r.ids

/-- Notes a block. -/
def note (r : RecentIds) (id : BlockId) : RecentIds :=
  { r with ids := (id :: r.ids.filter fun b => b ≠ id).take r.capacity }

end RecentIds

end LedgerChain
