import LedgerChain.Crypto
import LedgerChain.Crypto.Schnorr

/-!
# The cryptography chains run with

SHA-256 as the hash function and BIP340 as the signature scheme.
-/

namespace LedgerChain

/-- SHA-256 and BIP340. -/
instance Crypto.standard : Crypto where
  hash := Sha256.hash
  publicKey := Schnorr.publicKey
  sign := Schnorr.sign
  verify := Schnorr.verify

end LedgerChain
