import LedgerChain.Block
import LedgerChain.Table

/-!
# The block store

What survives a restart: the validated blocks with the states they lead to, an index of them by
height, and two pointers, to the canonical tip and to the last finalized block.

A store can have faults, which make some of its operations fail or forget blocks.  A failing
operation leaves the store as it was.

The writes that were made are kept in a journal, the latest first.  They take effect one after the
other, so a crash leaves the store that all writes up to some point make (`Store.ofJournal`).
-/

namespace LedgerChain

/-- The two pointers of a store. -/
inductive Pointer where
  | canonical
  | finalized
deriving DecidableEq

/-- The name of a pointer. -/
def Pointer.name : Pointer → String
  | canonical => "canonical"
  | finalized => "finalized"

/-- What a store was doing when it failed. -/
inductive StoreActivity where
  | writingBlock
  | writing (pointer : Pointer)
  | reading
  | flushing
deriving DecidableEq

/-- The wording of an activity. -/
def StoreActivity.describe : StoreActivity → String
  | writingBlock => "writing block"
  | writing pointer => s!"writing {pointer.name}"
  | reading => "reading"
  | flushing => "flushing"

/-- Why a store refuses an operation. -/
inductive StoreError where
  /-- A pointer was to be set to a block that is not stored. -/
  | unknownBlock (block : BlockId) (pointer : Pointer)
  /-- The store failed. -/
  | failed (activity : StoreActivity)
deriving DecidableEq

namespace StoreError

/-- The wording of a store error. -/
def message : StoreError → String
  | unknownBlock block pointer => s!"tried to mark unknown block {block} as {pointer.name}"
  | failed activity => s!"storage io: injected failure {activity.describe}"

end StoreError

/-- What is wrong with a store. -/
structure Faults where
  /-- Blocks cannot be written. -/
  blockWrites : Bool := false
  /-- Neither pointer can be written. -/
  pointerWrites : Bool := false
  /-- The finalized pointer cannot be written. -/
  finalizedWrites : Bool := false
  /-- Nothing can be read. -/
  reads : Bool := false
  /-- Writes cannot be made durable. -/
  flushes : Bool := false
  /-- Blocks that are not found any more. -/
  lostBlocks : List BlockId := []
  /-- Blocks whose states are not found any more. -/
  lostStates : List BlockId := []
deriving DecidableEq

/-- A stored block with the state after it. -/
structure StoredBlock where
  block : Block
  state : State
deriving DecidableEq

/-- A write to a store. -/
inductive StoreWrite where
  | block (block : Block) (state : State)
  | pointer (pointer : Pointer) (id : BlockId)
deriving DecidableEq

/-- What survives a restart. -/
structure Store where
  /-- The blocks, in the order in which they were stored. -/
  blocks : Table BlockId StoredBlock := .empty
  /-- The blocks of each height, in the order in which they were stored. -/
  levels : Table Nat (List BlockId) := .empty
  canonical : Option BlockId := none
  finalized : Option BlockId := none
  faults : Faults := {}
  /-- The writes that were made, the latest first. -/
  journal : List StoreWrite := []

namespace Store

/-- The number of stored blocks. -/
def size (s : Store) : Nat := s.blocks.size

/-- The stored blocks of a height, whatever the faults. -/
def level (s : Store) (height : Nat) : List BlockId := (s.levels.find? height).getD []

/-- The pointer's value, whatever the faults. -/
def pointer (s : Store) : Pointer → Option BlockId
  | .canonical => s.canonical
  | .finalized => s.finalized

/-- The store after a block is written.  A block that is already there is left alone. -/
def addBlock [Crypto] (s : Store) (block : Block) (state : State) : Store :=
  let id := block.id
  let journal := .block block state :: s.journal
  if s.blocks.contains id then { s with journal }
  else
    { s with
      blocks := s.blocks.insert id ⟨block, state⟩
      levels := s.levels.insert block.height (s.level block.height ++ [id])
      journal }

/-- The store after a pointer is written. -/
def point (s : Store) (p : Pointer) (id : BlockId) : Store :=
  let journal := .pointer p id :: s.journal
  match p with
  | .canonical => { s with canonical := some id, journal }
  | .finalized => { s with finalized := some id, journal }

/-- The store after a write. -/
def record [Crypto] (s : Store) : StoreWrite → Store
  | .block block state => s.addBlock block state
  | .pointer p id => s.point p id

/-- The store that some writes make, the latest first. -/
def ofJournal [Crypto] : List StoreWrite → Store
  | [] => {}
  | write :: earlier => (ofJournal earlier).record write

/-- Stores a validated block with the state after it. -/
def put [Crypto] (s : Store) (block : Block) (state : State) : Except StoreError Store :=
  if s.faults.blockWrites then .error (.failed .writingBlock) else .ok (s.addBlock block state)

/-- Whether a pointer cannot be written. -/
def pointerFault (s : Store) : Pointer → Bool
  | .canonical => s.faults.pointerWrites
  | .finalized => s.faults.finalizedWrites || s.faults.pointerWrites

/-- Sets a pointer to a stored block. -/
def setPointer (s : Store) (p : Pointer) (id : BlockId) : Except StoreError Store :=
  if s.pointerFault p then .error (.failed (.writing p))
  else if !s.blocks.contains id then .error (.unknownBlock id p)
  else .ok (s.point p id)

/-- Fails if nothing can be read. -/
def read {α : Type} (s : Store) (a : α) : Except StoreError α :=
  if s.faults.reads then .error (.failed .reading) else .ok a

/-- A stored block. -/
def getBlock (s : Store) (id : BlockId) : Except StoreError (Option Block) :=
  s.read (if id ∈ s.faults.lostBlocks then none else (s.blocks.find? id).map StoredBlock.block)

/-- The state after a stored block. -/
def getState (s : Store) (id : BlockId) : Except StoreError (Option State) :=
  s.read (if id ∈ s.faults.lostStates then none else (s.blocks.find? id).map StoredBlock.state)

/-- The stored blocks of a height, in the order in which they were stored. -/
def getLevel (s : Store) (height : Nat) : Except StoreError (List BlockId) :=
  s.read (s.level height)

/-- The value of a pointer. -/
def getPointer (s : Store) (p : Pointer) : Except StoreError (Option BlockId) :=
  s.read (s.pointer p)

/-- Makes sure that all writes are durable. -/
def flush (s : Store) : Except StoreError Unit :=
  if s.faults.flushes then .error (.failed .flushing) else .ok ()

end Store

end LedgerChain
