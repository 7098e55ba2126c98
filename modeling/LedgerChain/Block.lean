import LedgerChain.Extrinsic
import LedgerChain.Header
import LedgerChain.State

/-!
# Blocks

A block is a header and the extrinsics it orders.  The header names the extrinsics by a digest only,
so that a header alone can be checked, and a body that does not match it proves nothing against it.
-/

namespace LedgerChain

/-- The digest of an ordered list of extrinsics. -/
def extrinsicsDigest [Crypto] (xs : List Extrinsic) : Digest := Crypto.hash (Wire.encodeList xs)

/-- A header with the extrinsics it orders. -/
structure Block where
  header : Header
  /-- The extrinsics, in the order in which they apply. -/
  extrinsics : List Extrinsic
deriving DecidableEq

/-- Why a byte string is not a block. -/
inductive BlockDecodeError where
  | malformed (cause : WireError)
  | unsupportedVersion (version : UInt16)
deriving DecidableEq

/-- The wording of a block decoding error. -/
def BlockDecodeError.message : BlockDecodeError → String
  | malformed cause => s!"decode block: {cause.message}"
  | unsupportedVersion version => s!"unsupported block encoding version {version.toNat}"

namespace Block

instance : Wire Block where
  encode b := Wire.encode b.header ++ Wire.encodeList b.extrinsics
  decoder := do
    let header ← Wire.decoder
    let extrinsics ← Wire.decodeList
    pure ⟨header, extrinsics⟩

/-- The identifier, which is that of the header. -/
def id [Crypto] (b : Block) : BlockId := b.header.id

/-- The block below. -/
def parent (b : Block) : BlockId := b.header.parent

/-- The height as a number. -/
def height (b : Block) : Nat := b.header.height.toNat

/-- The binary form, for the wire and for storage. -/
def encode (b : Block) : Bytes := Wire.encode b

/-- The block whose binary form is the given byte string.  The version is looked at last. -/
def decode (input : Bytes) : Except BlockDecodeError Block :=
  match (Wire.decode input : Except WireError Block) with
  | .error e => .error (.malformed e)
  | .ok b =>
    if b.header.version = blockVersion then .ok b
    else .error (.unsupportedVersion b.header.version)

/-- The digest of the block's own extrinsics, to be compared with the header's. -/
def computedExtrinsicsDigest [Crypto] (b : Block) : Digest := extrinsicsDigest b.extrinsics

end Block

/-- A block that has been validated, with the state after it and its weight. -/
structure ChainTip where
  block : Block
  /-- The state after the block. -/
  state : State
  /-- What the block adds to the weight of its branch.  Seals give at most 64 bits. -/
  weight : Nat
deriving DecidableEq

namespace ChainTip

/-- The header of the block. -/
def header (t : ChainTip) : Header := t.block.header

/-- The identifier of the block. -/
def id [Crypto] (t : ChainTip) : BlockId := t.block.id

/-- The block below. -/
def parent (t : ChainTip) : BlockId := t.block.parent

/-- The height of the block. -/
def height (t : ChainTip) : Nat := t.block.height

end ChainTip

end LedgerChain
