import LedgerChain.Ids

/-!
# Extrinsics and calls

An extrinsic is what users submit to the chain: a payload and a priority.  The payload is the binary
form of a call, which names the change to make to the ledger.
-/

namespace LedgerChain

/-- The owner of a balance. -/
abbrev Account := PublicKey

/-- The changes an extrinsic can ask for. -/
inductive Call where
  /-- Writes a raw key. -/
  | set (key value : Bytes)
  /-- Removes a raw key, which must exist. -/
  | remove (key : Bytes)
  /-- Creates balance. -/
  | mint (account : Account) (amount : UInt64)
  /-- Destroys balance. -/
  | burn (account : Account) (amount : UInt64)
  /-- Moves balance from one account to another. -/
  | transfer (source target : Account) (amount : UInt64)
deriving DecidableEq

namespace Call

instance : Wire Call where
  encode
    | set key value => 0 :: (Wire.encode key ++ Wire.encode value)
    | remove key => 1 :: Wire.encode key
    | mint account amount => 2 :: (Wire.encode account ++ Wire.encode amount)
    | burn account amount => 3 :: (Wire.encode account ++ Wire.encode amount)
    | transfer source target amount =>
      4 :: (Wire.encode source ++ Wire.encode target ++ Wire.encode amount)
  decoder := do
    let tag : UInt8 ← Wire.decoder
    if tag = 0 then do
      let key ← Wire.decoder
      let value ← Wire.decoder
      pure (set key value)
    else if tag = 1 then remove <$> Wire.decoder
    else if tag = 2 then do
      let account ← Wire.decoder
      let amount ← Wire.decoder
      pure (mint account amount)
    else if tag = 3 then do
      let account ← Wire.decoder
      let amount ← Wire.decoder
      pure (burn account amount)
    else if tag = 4 then do
      let source ← Wire.decoder
      let target ← Wire.decoder
      let amount ← Wire.decoder
      pure (transfer source target amount)
    else Wire.fail (.unknownTag tag)

end Call

/-- What users submit to the chain. -/
structure Extrinsic where
  /-- The binary form of a call, if the extrinsic is any good. -/
  payload : Bytes
  /-- Extrinsics of higher priority are included first. -/
  priority : UInt64
deriving DecidableEq

namespace Extrinsic

instance : Wire Extrinsic where
  encode x := Wire.encode x.payload ++ Wire.encode x.priority
  decoder := do
    let payload ← Wire.decoder
    let priority ← Wire.decoder
    pure ⟨payload, priority⟩

/-- The extrinsic that asks for a call. -/
def ofCall (call : Call) (priority : UInt64) : Extrinsic := ⟨Wire.encode call, priority⟩

/-- The identifier, which covers payload and priority. -/
def id [Crypto] (x : Extrinsic) : ExtrinsicId := ⟨hashOf x⟩

/-- The size that counts against limits: that of the payload. -/
def size (x : Extrinsic) : Nat := x.payload.length

/-- The call in the payload. -/
def call (x : Extrinsic) : Except WireError Call := Wire.decode x.payload

end Extrinsic

/-! ### The keys of balances -/

/-- The first bytes of every key that holds a balance: `bal/`. -/
def balanceMark : Bytes := [0x62, 0x61, 0x6c, 0x2f]

/-- The key that holds an account's balance. -/
def balanceKey (account : Account) : Bytes := balanceMark ++ account.toList

/-- Whether a key is set aside for balances. -/
def isReservedKey (key : Bytes) : Bool := balanceMark.isPrefixOf key

end LedgerChain
