import LedgerChain.Crypto
import LedgerChain.State.Entries
import LedgerChain.State.Merkle

/-!
# States

The state of the ledger maps keys to values and counts the blocks that led to it.  Its digest is a
Merkle root over the entries; the count is not part of it.
-/

namespace LedgerChain

/-- The state of the ledger. -/
structure State where
  /-- The keys and their values. -/
  entries : Entries := .empty
  /-- The number of blocks applied since genesis. -/
  version : UInt64 := 0
deriving DecidableEq, Inhabited

namespace State

/-- The state with the given entries, before any block. -/
def ofList (pairs : List (Bytes × Bytes)) : State := ⟨Entries.ofList pairs, 0⟩

/-- The value at a key. -/
def find? (s : State) (key : Bytes) : Option Bytes := s.entries.find? key

/-- Whether there is a value at a key. -/
def contains (s : State) (key : Bytes) : Bool := s.entries.contains key

/-- The state after one more block. -/
def bumpVersion (s : State) : State := { s with version := s.version + 1 }

/-- The Merkle root over the entries in the order of their keys. -/
def digest [Crypto] (s : State) : Digest := Merkle.root (s.entries.toList.map Merkle.leaf)

instance : Wire State where
  encode s := Wire.encodeList s.entries.toList ++ Wire.encode s.version
  decoder := do
    let pairs ← Wire.decodeList
    let version ← Wire.decoder
    pure ⟨Entries.ofList pairs, version⟩

end State

/-- A single write to the state. -/
inductive Write where
  /-- Sets a value. -/
  | put (key value : Bytes)
  /-- Removes a value if there is one. -/
  | delete (key : Bytes)
deriving DecidableEq

namespace Write

/-- The state's entries after a write. -/
def apply (m : Entries) : Write → Entries
  | put key value => m.insert key value
  | delete key => m.erase key

instance : Wire Write where
  encode
    | put key value => 0 :: (Wire.encode key ++ Wire.encode value)
    | delete key => 1 :: Wire.encode key
  decoder := do
    let tag : UInt8 ← Wire.decoder
    if tag = 0 then do
      let key ← Wire.decoder
      let value ← Wire.decoder
      pure (put key value)
    else if tag = 1 then delete <$> Wire.decoder
    else Wire.fail (.unknownTag tag)

end Write

/-- The writes of one extrinsic, applied in order and all together. -/
structure WriteBatch where
  /-- The writes. -/
  writes : List Write := []
deriving DecidableEq

namespace WriteBatch

/-- The state after a batch.  The number of blocks stays. -/
def apply (batch : WriteBatch) (s : State) : State :=
  { s with entries := batch.writes.foldl Write.apply s.entries }

instance : Wire WriteBatch where
  encode batch := Wire.encodeList batch.writes
  decoder := WriteBatch.mk <$> Wire.decodeList

end WriteBatch

end LedgerChain
