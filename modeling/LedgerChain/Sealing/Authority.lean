import LedgerChain.Sealing.Context

/-!
# Sealing by authorities

A seal holds the position of an authority in the list of them and that authority's signature of the
header's commitment.  In turns, the authority for a height is fixed by the height.  All blocks have
weight one.
-/

namespace LedgerChain

/-- The proof in an authority seal. -/
structure AuthorityProof where
  /-- The position of the authority. -/
  index : UInt32
  signature : Signature
deriving DecidableEq

instance : Wire AuthorityProof where
  encode p := Wire.encode p.index ++ Wire.encode p.signature
  decoder := do
    let index ← Wire.decoder
    let signature ← Wire.decoder
    pure ⟨index, signature⟩

/-- The rule that blocks are sealed by signatures of authorities. -/
structure AuthorityRule where
  authorities : List PublicKey
  /-- Whether only one authority may seal each height. -/
  roundRobin : Bool
deriving DecidableEq

namespace AuthorityRule

/-- The position of the authority whose turn a height is, if there are turns: the authorities follow
each other from height one on. -/
def expected? (rule : AuthorityRule) (height : Nat) : Option Nat :=
  if rule.roundRobin && !rule.authorities.isEmpty then
    some ((height - 1) % rule.authorities.length)
  else none

/-- The position whose turn a height is, if that is not the given one. -/
def expectedInstead? (rule : AuthorityRule) (height index : Nat) : Option Nat :=
  match rule.expected? height with
  | none => none
  | some expected => if index = expected then none else some expected

variable [Crypto]

/-- Checks the seal of a header on its parent. -/
def validate (rule : AuthorityRule) (h parent : Header) (resulting : Digest) :
    Except SealError Unit := do
  Sealing.checkHeader .authority h parent
  let proof : AuthorityProof ← Sealing.readProof h.sealedBy
  match rule.authorities[proof.index.toNat]? with
  | none => .error (.unknownAuthority proof.index)
  | some key =>
    match rule.expectedInstead? h.height.toNat proof.index.toNat with
    | some expected => .error (.wrongAuthority proof.index h.height.toNat expected)
    | none =>
      if Crypto.verify proof.signature (h.commitment .authority resulting) key then .ok ()
      else .error (.badSignature proof.index)

/-- Seals a template with the given key. -/
def produce (rule : AuthorityRule) (t : HeaderTemplate) (parent : Header) (resulting : Digest)
    (ctx : SealContext) : Except SealError Seal := do
  Sealing.checkPlacement t parent
  match ctx.interruption 0 with
  | some e => .error e
  | none =>
    match ctx.authoringKey with
    | none => .error .missingAuthoringKey
    | some secret =>
      match Crypto.publicKey secret with
      | none => .error .missingAuthoringKey
      | some key =>
        match rule.authorities.findIdx? (· = key) with
        | none => .error .notAnAuthority
        | some index =>
          match rule.expectedInstead? t.height.toNat index with
          | some _ => .error (.notOurTurn t.height.toNat)
          | none =>
            match Crypto.sign secret (t.commitment .authority resulting) with
            | none => .error .missingAuthoringKey
            | some signature =>
              .ok ⟨.authority, Wire.encode (AuthorityProof.mk (UInt32.ofNat index) signature)⟩

end AuthorityRule

end LedgerChain
