import LedgerChain.Extrinsic
import LedgerChain.Table

/-!
# Pending extrinsics

The pool holds submitted extrinsics until they are included in a block.  They are handed out by
priority, highest first, and first come first served among equals.  Extrinsics that come back, since
the block they were pulled for or included in did not last, go ahead of all others of their priority.

Every pending extrinsic has a slot, which fixes its place: fresh ones are numbered upwards from zero
and returned ones downwards from minus one.
-/

namespace LedgerChain

/-- The limits of a pool. -/
structure MempoolConfig where
  /-- The most extrinsics to hold. -/
  capacity : Nat := 4096
  /-- The least priority. -/
  minPriority : UInt64 := 0
  /-- The largest payload, in bytes. -/
  maxExtrinsicSize : Nat := 64 * 1024
deriving DecidableEq

/-- Why an extrinsic is not taken. -/
inductive MempoolError where
  | alreadyKnown (id : ExtrinsicId)
  | priorityTooLow (priority minimum : UInt64)
  | poolFull (current limit : Nat)
  | tooLarge (size limit : Nat)
deriving DecidableEq

/-- The wording of a refusal. -/
def MempoolError.message : MempoolError → String
  | alreadyKnown id => s!"extrinsic {id} already in pool"
  | priorityTooLow priority minimum =>
    s!"priority {priority.toNat} below minimum {minimum.toNat}"
  | poolFull current limit => s!"pool is full: current={current}, limit={limit}"
  | tooLarge size limit => s!"extrinsic size {size} bytes exceeds limit {limit} bytes"

/-- The place of a pending extrinsic. -/
structure Slot where
  priority : UInt64
  number : Int
deriving DecidableEq

/-- Whether one slot comes before another: higher priorities first, then lower numbers. -/
def Slot.before (a b : Slot) : Bool :=
  b.priority < a.priority || (a.priority = b.priority && a.number < b.number)

/-- The extrinsics that wait to be included in a block. -/
structure Mempool where
  config : MempoolConfig
  /-- The extrinsics with their slots. -/
  entries : Table ExtrinsicId (Slot × Extrinsic) := .empty
  /-- The slots in use, first to last. -/
  queue : List (Slot × ExtrinsicId) := []
  /-- The number for the next fresh extrinsic. -/
  nextNumber : Int := 0
  /-- The number for the next returned extrinsic. -/
  nextReturned : Int := -1

namespace Mempool

/-- The number of pending extrinsics. -/
def size (p : Mempool) : Nat := p.entries.size

/-- Whether an extrinsic is pending. -/
def contains (p : Mempool) (id : ExtrinsicId) : Bool := p.entries.contains id

/-- The pending extrinsics in the order in which they are handed out. -/
def pending (p : Mempool) : List ExtrinsicId := p.queue.map Prod.snd

/-- Why an extrinsic with the given identifier would not be taken. -/
def refusal? (p : Mempool) (id : ExtrinsicId) (x : Extrinsic) : Option MempoolError :=
  if p.contains id then some (.alreadyKnown id)
  else if x.priority < p.config.minPriority then
    some (.priorityTooLow x.priority p.config.minPriority)
  else if p.config.maxExtrinsicSize < x.size then
    some (.tooLarge x.size p.config.maxExtrinsicSize)
  else if p.config.capacity ≤ p.size then some (.poolFull p.size p.config.capacity)
  else none

/-- Puts a slot into its place in a queue. -/
def enqueue (slot : Slot) (id : ExtrinsicId) : List (Slot × ExtrinsicId) → List (Slot × ExtrinsicId)
  | [] => [(slot, id)]
  | (s, i) :: rest =>
    if slot.before s then (slot, id) :: (s, i) :: rest
    else if slot = s then (slot, id) :: rest
    else (s, i) :: enqueue slot id rest

/-- Adds an extrinsic at a slot. -/
def insertAt (p : Mempool) (slot : Slot) (id : ExtrinsicId) (x : Extrinsic) : Mempool :=
  { p with entries := p.entries.insert id (slot, x), queue := enqueue slot id p.queue }

/-- Removes an extrinsic. -/
def erase (p : Mempool) (id : ExtrinsicId) : Mempool :=
  match p.entries.find? id with
  | none => p
  | some (slot, _) =>
    { p with entries := p.entries.erase id, queue := p.queue.filter fun q => q.1 ≠ slot }

/-- Removes extrinsics that were included in a canonical block. -/
def prune (p : Mempool) (ids : List ExtrinsicId) : Mempool := ids.foldl erase p

/-- Removes and returns the first extrinsics, at most `max` of them. -/
def pull (p : Mempool) (max : Nat) : List Extrinsic × Mempool :=
  let ids := p.pending.take max
  (ids.filterMap fun id => (p.entries.find? id).map Prod.snd, p.prune ids)

variable [Crypto]

/-- Adds a newly submitted extrinsic. -/
def submit (p : Mempool) (x : Extrinsic) : Except MempoolError Mempool :=
  match p.refusal? x.id x with
  | some e => .error e
  | none =>
    .ok { p.insertAt ⟨x.priority, p.nextNumber⟩ x.id x with nextNumber := p.nextNumber + 1 }

/-- Adds a returned extrinsic ahead of all others of its priority, unless it is refused.  Also tells
whether it was taken. -/
def giveBackOne (p : Mempool) (x : Extrinsic) : Bool × Mempool :=
  match p.refusal? x.id x with
  | some _ => (false, p)
  | none =>
    (true, { p.insertAt ⟨x.priority, p.nextReturned⟩ x.id x with
      nextReturned := p.nextReturned - 1 })

/-- Takes back extrinsics, from the last one to the first, so that the first one comes out first.
Also tells how many were taken. -/
def giveBack (p : Mempool) (xs : List Extrinsic) : Nat × Mempool :=
  xs.reverse.foldl (fun (n, q) x =>
    let (taken, q') := q.giveBackOne x
    (if taken then n + 1 else n, q')) (0, p)

end Mempool

end LedgerChain
