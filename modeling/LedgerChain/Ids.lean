import LedgerChain.Crypto

/-!
# Identifiers of blocks and extrinsics

Both are digests; they are kept apart by their types.  Block identifiers are ordered, which decides
between branches of equal weight.
-/

namespace LedgerChain

/-- The identifier of a block: the hash of its whole header. -/
structure BlockId where
  /-- The hash. -/
  digest : Digest
deriving DecidableEq, Inhabited

/-- The identifier of an extrinsic: the hash of its binary form. -/
structure ExtrinsicId where
  /-- The hash. -/
  digest : Digest
deriving DecidableEq, Inhabited

namespace BlockId

/-- The parent of a genesis block. -/
def null : BlockId := ⟨Buffer.zero 32⟩

/-- Whether this is the parent of a genesis block. -/
def isNull (id : BlockId) : Bool := id.digest.isZero

instance : LT BlockId := ⟨fun a b => a.digest < b.digest⟩

instance (a b : BlockId) : Decidable (a < b) := inferInstanceAs (Decidable (a.digest < b.digest))

instance : ToString BlockId := ⟨fun id => id.digest.short⟩

instance : Wire BlockId where
  encode id := Wire.encode id.digest
  decoder := BlockId.mk <$> Wire.decoder

end BlockId

namespace ExtrinsicId

instance : LT ExtrinsicId := ⟨fun a b => a.digest < b.digest⟩

instance (a b : ExtrinsicId) : Decidable (a < b) :=
  inferInstanceAs (Decidable (a.digest < b.digest))

instance : ToString ExtrinsicId := ⟨fun id => id.digest.short⟩

end ExtrinsicId

end LedgerChain
