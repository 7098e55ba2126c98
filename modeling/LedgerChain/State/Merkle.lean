import LedgerChain.Crypto

/-!
# Merkle roots

The root of a list of leaves: neighbours are joined layer by layer, and a last node without a
neighbour is carried up as it is.  Leaves and inner nodes are hashed with different first bytes.
-/

namespace LedgerChain

namespace Merkle

variable [Crypto]

/-- The leaf of a key and its value. -/
def leaf (pair : Bytes × Bytes) : Digest := Crypto.hash (0x00 :: Wire.encode pair)

/-- The inner node over two nodes. -/
def join (left right : Digest) : Digest := Crypto.hash (0x01 :: (left.toList ++ right.toList))

/-- The layer above a layer. -/
def layerAbove : List Digest → List Digest
  | left :: right :: rest => join left right :: layerAbove rest
  | layer => layer

/-- The layer reached by going up `n` times. -/
def climb : (n : Nat) → List Digest → List Digest
  | 0, layer => layer
  | n + 1, layer => climb n (layerAbove layer)

/-- The root over a list of leaves, and the zero digest over none.  As many steps up as there are
leaves leave a single node, which further steps do not change. -/
def root (leaves : List Digest) : Digest := (climb leaves.length leaves).headD (Buffer.zero 32)

end Merkle

end LedgerChain
