import LedgerChain.Sealing.Context

/-!
# Proof of work

A seal holds a difficulty and a nonce.  Hashed together with the header's commitment they must give
a number whose leading 128 bits are at most `(2¹²⁸ - 1) / difficulty`.  The difficulty is the block's
weight, so a seal of higher difficulty counts for more.
-/

namespace LedgerChain

/-- The proof in a work seal. -/
structure WorkProof where
  difficulty : UInt64
  nonce : UInt64
deriving DecidableEq

instance : Wire WorkProof where
  encode p := Wire.encode p.difficulty ++ Wire.encode p.nonce
  decoder := do
    let difficulty ← Wire.decoder
    let nonce ← Wire.decoder
    pure ⟨difficulty, nonce⟩

/-- The rule that blocks are sealed by work. -/
structure WorkRule where
  /-- The least difficulty of a seal. -/
  minDifficulty : UInt64
deriving DecidableEq

namespace WorkRule

/-- The rule with the given least difficulty, which is never zero. -/
def ofMinimum (minimum : UInt64) : WorkRule := ⟨if minimum = 0 then 1 else minimum⟩

/-- The number of nonces tried between two polls. -/
def pollInterval : Nat := 4096

variable [Crypto]

/-- The hash that decides whether a nonce is good. -/
def sealHash (commitment : Digest) (difficulty nonce : UInt64) : Digest :=
  Crypto.hash (commitment.toList ++ Bytes.ofNatBE 8 difficulty.toNat ++
    Bytes.ofNatBE 8 nonce.toNat)

omit [Crypto] in
/-- Whether a hash is small enough for a difficulty. -/
def meets (hash : Digest) (difficulty : UInt64) : Bool :=
  Bytes.toNatBE (hash.toList.take 16) ≤ (Nat.pow 2 128 - 1) / difficulty.toNat

/-- Whether a nonce seals a commitment at a difficulty. -/
def isGood (commitment : Digest) (difficulty nonce : UInt64) : Bool :=
  meets (sealHash commitment difficulty nonce) difficulty

/-- Checks the seal of a header on its parent. -/
def validate (rule : WorkRule) (h parent : Header) (resulting : Digest) :
    Except SealError Unit := do
  Sealing.checkHeader .work h parent
  let proof : WorkProof ← Sealing.readProof h.sealedBy
  if proof.difficulty < rule.minDifficulty then
    .error (.insufficientDifficulty proof.difficulty rule.minDifficulty)
  else if isGood (h.commitment .work resulting) proof.difficulty proof.nonce then .ok ()
  else .error (.thresholdNotMet proof.difficulty)

omit [Crypto] in
/-- Tries at most `left` nonces from `nonce` on, after `tried` others, and polls for interruptions
before the first one and then before every `pollInterval`-th. -/
def search (good : UInt64 → Bool) (interruption : Nat → Option SealError) :
    (left tried : Nat) → (nonce : UInt64) → Except SealError UInt64
  | 0, _, _ => .error .noncesExhausted
  | left + 1, tried, nonce =>
    match if tried % pollInterval = 0 then interruption (tried / pollInterval) else none with
    | some e => .error e
    | none =>
      if good nonce then .ok nonce
      else search good interruption left (tried + 1) (nonce + 1)

/-- The number of nonces tried before a search is given up. -/
def searchLimit : Nat := UInt64.size - 1

omit [Crypto] in
/-- The difficulty to seal at: the requested one, or the minimum if that is higher. -/
def targetDifficulty (rule : WorkRule) (requested : Option UInt64) : UInt64 :=
  let d := requested.getD rule.minDifficulty
  if d < rule.minDifficulty then rule.minDifficulty else d

/-- Seals a template with the first good nonce. -/
def produce (rule : WorkRule) (t : HeaderTemplate) (parent : Header) (resulting : Digest)
    (ctx : SealContext) : Except SealError Seal := do
  Sealing.checkPlacement t parent
  let difficulty := rule.targetDifficulty ctx.workDifficulty
  let commitment := t.commitment .work resulting
  let nonce ← search (isGood commitment difficulty) ctx.interruption searchLimit 0 ctx.nonceStart
  pure ⟨.work, Wire.encode (WorkProof.mk difficulty nonce)⟩

omit [Crypto] in
/-- The weight of a sealed header: its difficulty. -/
def weight (h : Header) : Except SealError Nat := do
  let proof : WorkProof ← Sealing.readProof h.sealedBy
  pure proof.difficulty.toNat

end WorkRule

end LedgerChain
