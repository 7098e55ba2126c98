import LedgerChain.Proofs.Sealing.Sound

/-!
# A transparent choice of cryptography

A hash function and a signature scheme that are easy to compute with, for examples of runs.  The
hash of a byte string is the number that its bytes are the digits of, in base 257 and cut to 32
bytes, so it tells apart short byte strings only.  Every secret key is its own public key, and a
signature is the key followed by the digest.  Neither keeps any secret; signatures verify
(`Crypto.signaturesVerify_transparent`).
-/

namespace LedgerChain

/-- Cryptography that hides nothing. -/
@[reducible] def Crypto.transparent : Crypto where
  hash bs := Buffer.ofNat 32 (bs.foldl (fun acc b => 257 * acc + b.toNat + 1) 0)
  publicKey secret := some secret
  sign secret digest :=
    some ⟨secret.toList ++ digest.toList, by
      rw [List.length_append, secret.length_toList, digest.length_toList]⟩
  verify signature digest key := signature.toList = key.toList ++ digest.toList

theorem Crypto.signaturesVerify_transparent :
    letI := Crypto.transparent
    Crypto.SignaturesVerify := by
  intro secret key digest signature hkey hsign
  cases hkey
  cases hsign
  exact decide_eq_true rfl

/-- A header of which only the height matters. -/
def sampleHeader (height : UInt64) : Header :=
  ⟨{ parent := ⟨.zero 32⟩, height, stateDigest := .zero 32, extrinsicsDigest := .zero 32 },
    ⟨.authority, []⟩⟩

/-- A template that lies right above a header. -/
def sampleTemplate [Crypto] (parent : Header) : HeaderTemplate :=
  { parent := parent.id, height := parent.height + 1, stateDigest := .zero 32,
    extrinsicsDigest := .zero 32 }

/-- The answer of an evaluated run can be compared without its error. -/
theorem toOption_eq_some_iff {ε α : Type} {x : Except ε α} {a : α} :
    x.toOption = some a ↔ x = .ok a := by
  cases x <;> simp [Except.toOption]

end LedgerChain
