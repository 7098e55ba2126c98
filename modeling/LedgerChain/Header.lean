import LedgerChain.Ids

/-!
# Block headers and seals

A header places a block on its parent and names the block's contents by two digests: of the state
after the block and of its extrinsics.  Before it is sealed it is a template.  The seal is a proof
for one of the two sealing rules; what it commits to is `HeaderTemplate.commitment`.
-/

namespace LedgerChain

/-- The version of the binary form of blocks. -/
def blockVersion : UInt16 := 1

/-- The sealing rule that a seal is meant for. -/
inductive SealKind where
  /-- Proof of work. -/
  | work
  /-- The signature of an authority. -/
  | authority
deriving DecidableEq

namespace SealKind

/-- The name of a sealing rule. -/
def name : SealKind → String
  | work => "Work"
  | authority => "Authority"

instance : Wire SealKind where
  encode
    | work => [0]
    | authority => [1]
  decoder := do
    let tag : UInt8 ← Wire.decoder
    if tag = 0 then pure work
    else if tag = 1 then pure authority
    else Wire.fail (.unknownTag tag)

end SealKind

/-- A consensus proof, which only the rule it is meant for can read. -/
structure Seal where
  kind : SealKind
  proof : Bytes
deriving DecidableEq

instance : Wire Seal where
  encode s := Wire.encode s.kind ++ Wire.encode s.proof
  decoder := do
    let kind ← Wire.decoder
    let proof ← Wire.decoder
    pure ⟨kind, proof⟩

/-- A header before it is sealed. -/
structure HeaderTemplate where
  version : UInt16 := blockVersion
  /-- The block below, the null identifier for a genesis block. -/
  parent : BlockId
  /-- One more than the parent's; genesis is at height zero. -/
  height : UInt64
  /-- The digest of the state after the block. -/
  stateDigest : Digest
  /-- The digest of the block's extrinsics. -/
  extrinsicsDigest : Digest
deriving DecidableEq

namespace HeaderTemplate

instance : Wire HeaderTemplate where
  encode t := Wire.encode t.version ++ Wire.encode t.parent ++ Wire.encode t.height ++
    Wire.encode t.stateDigest ++ Wire.encode t.extrinsicsDigest
  decoder := do
    let version ← Wire.decoder
    let parent ← Wire.decoder
    let height ← Wire.decoder
    let stateDigest ← Wire.decoder
    let extrinsicsDigest ← Wire.decoder
    pure ⟨version, parent, height, stateDigest, extrinsicsDigest⟩

/-- The bytes a seal commits to: the header's fields, the sealing rule, and in place of the
header's own state digest the given one, which is the one under test. -/
def commitmentBytes (t : HeaderTemplate) (kind : SealKind) (resulting : Digest) : Bytes :=
  Wire.encode t.version ++ Wire.encode kind ++ Wire.encode t.parent ++ Wire.encode t.height ++
    Wire.encode t.extrinsicsDigest ++ Wire.encode resulting

/-- The digest a seal commits to. -/
def commitment [Crypto] (t : HeaderTemplate) (kind : SealKind) (resulting : Digest) : Digest :=
  Crypto.hash (t.commitmentBytes kind resulting)

end HeaderTemplate

/-- A sealed header. -/
structure Header extends HeaderTemplate where
  /-- The seal. -/
  sealedBy : Seal
deriving DecidableEq

namespace Header

instance : Wire Header where
  encode h := Wire.encode h.toHeaderTemplate ++ Wire.encode h.sealedBy
  decoder := do
    let template ← Wire.decoder
    let sealedBy ← Wire.decoder
    pure ⟨template, sealedBy⟩

/-- The identifier of the block with this header, which covers the seal. -/
def id [Crypto] (h : Header) : BlockId := ⟨hashOf h⟩

end Header

/-- The template completed with a seal. -/
def HeaderTemplate.complete (t : HeaderTemplate) (mark : Seal) : Header := ⟨t, mark⟩

end LedgerChain
