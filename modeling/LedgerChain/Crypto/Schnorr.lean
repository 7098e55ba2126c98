import LedgerChain.Crypto.Curve
import LedgerChain.Crypto.Sha256

/-!
# Schnorr signatures

The BIP340 scheme over secp256k1.  Public keys are first coordinates of points; the second
coordinate is taken to be even.  The secret nonce of a signature is derived from the key and the
message with 32 zero bytes of auxiliary randomness, so that signing is a function.
-/

namespace LedgerChain

namespace Schnorr

open Curve

/-- The hash of a message for one purpose, named by a tag. -/
def taggedHash (tag : String) (message : Bytes) : Buffer 32 :=
  let t := (Sha256.hash tag.toUTF8.data.toList).toList
  Sha256.hash (t ++ t ++ message)

/-- The 32-byte form of a number. -/
def numberBytes (n : Nat) : Bytes := Bytes.ofNatBE 32 n

/-- The scalar of a secret key, if it is a valid one: neither zero nor above the group's order. -/
def secret? (key : Buffer 32) : Option Nat :=
  let d := key.toNat
  if d = 0 ∨ order ≤ d then none else some d

/-- A scalar and the coordinates of its point, the scalar negated if the second coordinate is
odd. -/
def evenPair? (d : Nat) : Option (Nat × Nat) := do
  let (x, y) ← (Point.smul d Point.generator).affine?
  pure (if y % 2 = 0 then d else order - d, x)

/-- The public key of a secret key. -/
def publicKey (key : Buffer 32) : Option (Buffer 32) := do
  let d ← secret? key
  let (_, x) ← evenPair? d
  pure (Buffer.ofNat 32 x)

/-- The challenge that binds a nonce point, a public key and a message. -/
def challenge (nonceX keyX : Nat) (message : Buffer 32) : Nat :=
  (taggedHash "BIP0340/challenge"
    (numberBytes nonceX ++ numberBytes keyX ++ message.toList)).toNat % order

/-- The signature of a message. -/
def sign (key message : Buffer 32) : Option (Buffer 64) := do
  let (d, x) ← evenPair? (← secret? key)
  let mask := taggedHash "BIP0340/aux" (Buffer.zero 32).toList
  let masked := List.zipWith (fun a b => a ^^^ b) (numberBytes d) mask.toList
  let seed := (taggedHash "BIP0340/nonce" (masked ++ numberBytes x ++ message.toList)).toNat % order
  let (k, r) ← evenPair? seed
  let s := (k + challenge r x message * d) % order
  pure ⟨numberBytes r ++ numberBytes s, by simp [numberBytes]⟩

/-- Whether a signature of a message was made for a public key. -/
def verify (signature : Buffer 64) (message key : Buffer 32) : Bool :=
  let r := Bytes.toNatBE (signature.toList.take 32)
  let s := Bytes.toNatBE (signature.toList.drop 32)
  match Point.lift? key.toNat with
  | none => false
  | some p =>
    if fieldPrime ≤ r ∨ order ≤ s then false
    else
      let e := challenge r key.toNat message
      match (Point.add (Point.smul s Point.generator) (Point.smul (order - e) p)).affine? with
      | none => false
      | some (x, y) => y % 2 = 0 && x = r

end Schnorr

end LedgerChain
