import LedgerChain.Block
import LedgerChain.Table

/-!
# Orphans

Blocks whose parent is unknown are kept, up to a number of them, until the parent comes.  They are
filed under the parent they wait for; when the pool is full the oldest goes.
-/

namespace LedgerChain

/-- Blocks that wait for their parents. -/
structure OrphanPool where
  /-- The most blocks to keep. -/
  capacity : Nat
  /-- The blocks by the parent they wait for, oldest first. -/
  byParent : Table BlockId (List Block) := .empty
  /-- The parent that each block waits for. -/
  parents : Table BlockId BlockId := .empty
  /-- The blocks, oldest first. -/
  order : List BlockId := []

namespace OrphanPool

/-- The number of blocks. -/
def size (p : OrphanPool) : Nat := p.parents.size

/-- Whether a block is kept. -/
def contains (p : OrphanPool) (id : BlockId) : Bool := p.parents.contains id

variable [Crypto]

/-- Takes a block out of the file of the parent it waits for.  Empty files are removed. -/
def unfile (byParent : Table BlockId (List Block)) (parent id : BlockId) :
    Table BlockId (List Block) :=
  match byParent.find? parent with
  | none => byParent
  | some file =>
    let kept := file.filter fun b => b.id ≠ id
    if kept.isEmpty then byParent.erase parent else byParent.insert parent kept

/-- Drops the oldest of the blocks in the queue until there is room for one more. -/
def makeRoom (p : OrphanPool) : (queue : List BlockId) → OrphanPool
  | [] => { p with order := [] }
  | id :: rest =>
    if p.size < p.capacity then { p with order := id :: rest }
    else
      match p.parents.find? id with
      | none => makeRoom p rest
      | some parent =>
        makeRoom { p with
          parents := p.parents.erase id
          byParent := unfile p.byParent parent id } rest

/-- Keeps a block.  Answers whether it was taken: it is not if nothing can be kept at all, or if it is
there already. -/
def insert (p : OrphanPool) (block : Block) : Bool × OrphanPool :=
  let id := block.id
  if p.capacity = 0 || p.contains id then (false, p)
  else
    let roomy := p.makeRoom p.order
    let file := (roomy.byParent.find? block.parent).getD []
    (true, { roomy with
      byParent := roomy.byParent.insert block.parent (file ++ [block])
      parents := roomy.parents.insert id block.parent
      order := roomy.order ++ [id] })

/-- Takes out all blocks that wait for a parent, oldest first. -/
def takeChildren (p : OrphanPool) (parent : BlockId) : List Block × OrphanPool :=
  let file := (p.byParent.find? parent).getD []
  let parents := file.foldl (fun t b => t.erase b.id) p.parents
  (file, { p with
    byParent := p.byParent.erase parent
    parents
    order := p.order.filter fun id => parents.contains id })

end OrphanPool

end LedgerChain
