import LedgerChain.Wire

/-!
# Cryptography of a chain

A chain is built over one hash function and one signature scheme.  Everything in the library is
stated over an arbitrary choice of the two, given by an instance of `Crypto`; `Crypto.Standard`
holds the one that chains run with.
-/

namespace LedgerChain

/-- The output of the hash function. -/
abbrev Digest := Buffer 32

/-- A secret signing key. -/
abbrev SecretKey := Buffer 32

/-- A public key, which stands for an authority or owns an account. -/
abbrev PublicKey := Buffer 32

/-- A signature over a digest. -/
abbrev Signature := Buffer 64

/-- The hash function and the signature scheme of a chain. -/
class Crypto where
  /-- The hash of a byte string. -/
  hash : Bytes → Digest
  /-- The public key of a secret key, if it is a valid one. -/
  publicKey : SecretKey → Option PublicKey
  /-- The signature of a digest under a secret key, if it is a valid one. -/
  sign : SecretKey → Digest → Option Signature
  /-- Whether a signature of a digest was made with the secret key of a public key. -/
  verify : Signature → Digest → PublicKey → Bool

/-- The hash of a value's binary form. -/
def hashOf [Crypto] {α : Type} [Wire α] (a : α) : Digest := Crypto.hash (Wire.encode a)

end LedgerChain
