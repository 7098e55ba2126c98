import LedgerChain.Sealing.Error

/-!
# What a sealing attempt is given

The local inputs of sealing, and the checks that both sealing rules make: that a header lies on the
parent it is checked against, and that a seal can be read.

An attempt looks up from its work now and then, to see whether it was cancelled or ran out of time.
These polls are numbered from zero, and the context says what each of them sees.
-/

namespace LedgerChain

/-- The local inputs of a sealing attempt. -/
structure SealContext where
  /-- Whether the given poll sees that the attempt was cancelled. -/
  cancelled : Nat → Bool := fun _ => false
  /-- Whether the given poll sees that time ran out. -/
  expired : Nat → Bool := fun _ => false
  /-- The key to sign with. -/
  authoringKey : Option SecretKey := none
  /-- The difficulty to seal at, if above the minimum. -/
  workDifficulty : Option UInt64 := none
  /-- The first nonce to try. -/
  nonceStart : UInt64 := 0

namespace SealContext

/-- The reason to stop that a poll sees.  Cancellation is looked at first. -/
def interruption (ctx : SealContext) (poll : Nat) : Option SealError :=
  if ctx.cancelled poll then some .sealCancelled
  else if ctx.expired poll then some .sealTimeout
  else none

end SealContext

namespace Sealing

/-- A header must name the parent it is checked against, and lie right above it.  There is nothing
right above a parent of the greatest height; in 64 bits that would be height zero. -/
def checkPlacement [Crypto] (t : HeaderTemplate) (parent : Header) : Except SealError Unit :=
  if t.parent ≠ parent.id then .error (.parentMismatch t.parent parent.id)
  else if t.height.toNat ≠ parent.height.toNat + 1 then
    .error (.heightMismatch t.height.toNat parent.height.toNat)
  else .ok ()

/-- A sealed header must be sealed for the given rule, and lie on the parent. -/
def checkHeader [Crypto] (kind : SealKind) (h parent : Header) : Except SealError Unit :=
  if h.sealedBy.kind ≠ kind then .error (.wrongEngine h.sealedBy.kind kind)
  else checkPlacement h.toHeaderTemplate parent

/-- The proof in a seal. -/
def readProof {α : Type} [Wire α] (mark : Seal) : Except SealError α :=
  match (Wire.decode mark.proof : Except WireError α) with
  | .error e => .error (.malformedSeal e)
  | .ok proof => .ok proof

end Sealing

end LedgerChain
