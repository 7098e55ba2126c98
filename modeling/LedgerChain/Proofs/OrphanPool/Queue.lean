import LedgerChain.Proofs.Crypto.Transparent
import LedgerChain.Proofs.OrphanPool
import LedgerChain.Proofs.Tree.Walk

/-!
# Orphans as a bounded queue

What a pool of orphans is meant to be is a queue of blocks, oldest first, that has no more blocks
than its capacity (`OrphanQueue`).  A new block goes to the end, and the oldest one goes if the
queue is full.  The blocks that wait for a parent are taken out wherever they stand.

A pool **follows** a queue if its three tables describe the queue's blocks (`OrphanPool.Follows`).
Each operation of a pool gives the answer of the queue and leads to a pool that follows what it
leads the queue to (`Follows.perform`), so pools that started empty cannot be told from queues that
did (`OrphanPool.behaves_as_queue`).

To make room, a pool drops its oldest block as often as it takes.  Nothing in this loop says that it
ends: it would go on for ever over a pool that counts more blocks than it can find.  It ends because
the tables agree (`Holds.eviction_ends`).
-/

namespace LedgerChain

/-! ### The queue -/

/-- Blocks, oldest first, and the most that there may be. -/
structure OrphanQueue where
  capacity : Nat
  blocks : List Block := []

/-- What can be asked of a pool of orphans. -/
inductive OrphanOperation where
  | insert (block : Block)
  | takeChildren (parent : BlockId)
  | contains (id : BlockId)
  | size

/-- What a pool of orphans answers. -/
inductive OrphanAnswer where
  | inserted (taken : Bool)
  | children (blocks : List Block)
  | contained (yes : Bool)
  | counted (size : Nat)

/-- Where some operations lead, one after the other. -/
def afterOperations {σ : Type} (perform : σ → OrphanOperation → OrphanAnswer × σ) (s : σ)
    (ops : List OrphanOperation) : σ :=
  ops.foldl (fun s op => (perform s op).2) s

variable [Crypto]

namespace OrphanQueue

/-- The identifiers, oldest first. -/
def ids (q : OrphanQueue) : List BlockId := q.blocks.map Block.id

/-- Puts a block at the end, and answers whether it was taken.  It is not if there may be no block
at all, or if its identifier is there.  The oldest block goes if and only if the queue is full. -/
def insert (q : OrphanQueue) (block : Block) : Bool × OrphanQueue :=
  if q.capacity = 0 ∨ block.id ∈ q.ids then (false, q)
  else
    let kept := if q.blocks.length = q.capacity then q.blocks.tail else q.blocks
    (true, { q with blocks := kept ++ [block] })

/-- Takes out all blocks that wait for a parent, oldest first. -/
def takeChildren (q : OrphanQueue) (parent : BlockId) : List Block × OrphanQueue :=
  (q.blocks.filter fun b => b.parent = parent,
    { q with blocks := q.blocks.filter fun b => b.parent ≠ parent })

/-- What a queue answers to an operation, and what it is like afterwards. -/
def perform (q : OrphanQueue) : OrphanOperation → OrphanAnswer × OrphanQueue
  | .insert block => (.inserted (q.insert block).1, (q.insert block).2)
  | .takeChildren parent => (.children (q.takeChildren parent).1, (q.takeChildren parent).2)
  | .contains id => (.contained (decide (id ∈ q.ids)), q)
  | .size => (.counted q.blocks.length, q)

theorem capacity_perform (q : OrphanQueue) (op : OrphanOperation) :
    (q.perform op).2.capacity = q.capacity := by
  cases op with
  | insert block =>
    simp only [perform, insert]
    split <;> rfl
  | takeChildren parent => rfl
  | contains id => rfl
  | size => rfl

theorem capacity_afterOperations (q : OrphanQueue) (ops : List OrphanOperation) :
    (afterOperations perform q ops).capacity = q.capacity := by
  induction ops generalizing q with
  | nil => rfl
  | cons op ops ih => exact (ih _).trans (q.capacity_perform op)

end OrphanQueue

namespace OrphanPool

/-- What a pool answers to an operation, and what it is like afterwards. -/
def perform (p : OrphanPool) : OrphanOperation → OrphanAnswer × OrphanPool
  | .insert block => (.inserted (p.insert block).1, (p.insert block).2)
  | .takeChildren parent => (.children (p.takeChildren parent).1, (p.takeChildren parent).2)
  | .contains id => (.contained (p.contains id), p)
  | .size => (.counted p.size, p)

variable {p : OrphanPool} {q : OrphanQueue} {l : List Block} {b : Block}

theorem insert_eq_self (h : (p.insert b).1 = false) : (p.insert b).2 = p := by
  rw [insert] at h ⊢
  split
  · rfl
  · rename_i htaken
    rw [if_neg htaken] at h
    cases h

/-! ### Operation by operation -/

/-- The tables of the pool describe the blocks of a queue with the same capacity. -/
structure Follows (p : OrphanPool) (q : OrphanQueue) : Prop where
  capacity_eq : p.capacity = q.capacity
  holds : p.Holds q.blocks
  length_le : q.blocks.length ≤ q.capacity

theorem follows_new (capacity : Nat) : Follows { capacity } { capacity } :=
  ⟨rfl, holds_new capacity, Nat.zero_le _⟩

namespace Follows

theorem contains_eq (h : p.Follows q) (id : BlockId) : p.contains id = decide (id ∈ q.ids) := by
  rw [Bool.eq_iff_iff, decide_eq_true_eq]
  exact h.holds.contains_iff

theorem insert_of_not (h : p.Follows q) (hnot : q.capacity = 0 ∨ b.id ∈ q.ids) :
    p.insert b = (false, p) ∧ q.insert b = (false, q) :=
  ⟨h.holds.insert_of_not (h.capacity_eq ▸ hnot), if_pos hnot⟩

/-- As many of the oldest blocks go as the queue lets go: one if it is full, and else none. -/
theorem drop_eq (h : p.Follows q) :
    q.blocks.drop (q.blocks.length + 1 - p.capacity) =
      if q.blocks.length = q.capacity then q.blocks.tail else q.blocks := by
  have hle := h.length_le
  rw [h.capacity_eq]
  split
  · rename_i hfull
    rw [show q.blocks.length + 1 - q.capacity = 1 by omega, List.drop_one]
  · rename_i hroom
    rw [show q.blocks.length + 1 - q.capacity = 0 by omega, List.drop_zero]

/-- **A block is taken or not as the queue takes it**, and stands where it stands there. -/
theorem insert (h : p.Follows q) (b : Block) :
    (p.insert b).1 = (q.insert b).1 ∧ (p.insert b).2.Follows (q.insert b).2 := by
  by_cases hnot : q.capacity = 0 ∨ b.id ∈ q.ids
  · obtain ⟨hpool, hqueue⟩ := h.insert_of_not hnot
    rw [hpool, hqueue]
    exact ⟨rfl, h⟩
  · have hqueue : q.insert b = (true, { q with blocks :=
        (if q.blocks.length = q.capacity then q.blocks.tail else q.blocks) ++ [b] }) := if_neg hnot
    obtain ⟨hzero, hnew⟩ := not_or.1 hnot
    obtain ⟨htaken, hsame, hholds⟩ := h.holds.insert (h.capacity_eq ▸ hzero) hnew
    rw [h.drop_eq] at hholds
    rw [hqueue]
    refine ⟨htaken, hsame.trans h.capacity_eq, hholds, ?_⟩
    have hle := h.length_le
    show List.length (_ ++ [b]) ≤ q.capacity
    rw [List.length_append, List.length_singleton]
    split
    · rw [List.length_tail]
      omega
    · omega

theorem takeChildren (h : p.Follows q) (parent : BlockId) :
    (p.takeChildren parent).1 = (q.takeChildren parent).1 ∧
      (p.takeChildren parent).2.Follows (q.takeChildren parent).2 := by
  obtain ⟨htaken, hsame, hholds⟩ := h.holds.takeChildren parent
  refine ⟨htaken, hsame.trans h.capacity_eq, hholds, ?_⟩
  exact Nat.le_trans (List.length_filter_le _ _) h.length_le

/-- **Each operation is answered as the queue answers it**, and leads where it leads the queue. -/
theorem perform (h : p.Follows q) (op : OrphanOperation) :
    (p.perform op).1 = (q.perform op).1 ∧ (p.perform op).2.Follows (q.perform op).2 := by
  cases op with
  | insert block =>
    obtain ⟨htaken, hnext⟩ := h.insert block
    exact ⟨congrArg OrphanAnswer.inserted htaken, hnext⟩
  | takeChildren parent =>
    obtain ⟨htaken, hnext⟩ := h.takeChildren parent
    exact ⟨congrArg OrphanAnswer.children htaken, hnext⟩
  | contains id => exact ⟨congrArg OrphanAnswer.contained (h.contains_eq id), h⟩
  | size => exact ⟨congrArg OrphanAnswer.counted h.holds.size_eq, h⟩

theorem afterOperations (h : p.Follows q) (ops : List OrphanOperation) :
    (LedgerChain.afterOperations OrphanPool.perform p ops).Follows
      (LedgerChain.afterOperations OrphanQueue.perform q ops) :=
  List.foldl_rel h fun op _ _ _ hstep => (hstep.perform op).2

end Follows

/-! ### The loop that makes room -/

/-- Drops the oldest block: the first one of the queue that is on record. -/
def dropOldest (p : OrphanPool) : (queue : List BlockId) → OrphanPool
  | [] => { p with order := [] }
  | id :: rest =>
    match p.parents.find? id with
    | none => dropOldest p rest
    | some parent =>
      { p with
        parents := p.parents.erase id
        byParent := unfile p.byParent parent id
        order := rest }

/-- A round of the loop that makes room for one more block. -/
def evictionRound (p : OrphanPool) : OrphanPool ⊕ OrphanPool :=
  if p.size < p.capacity then .inr p else .inl (p.dropOldest p.order)

/-- Room is made by the queue that is given, whatever order the pool has on record. -/
theorem makeRoom_withOrder (p : OrphanPool) (order queue : List BlockId) :
    ({ p with order } : OrphanPool).makeRoom queue = p.makeRoom queue := by
  induction queue generalizing p with
  | nil => rfl
  | cons id rest ih =>
    rw [makeRoom, makeRoom]
    refine ite_congr rfl (fun _ => rfl) fun _ => ?_
    show (match p.parents.find? id with | none => _ | some parent => _) = _
    cases p.parents.find? id with
    | none => exact ih p
    | some parent =>
      exact ih { p with
        parents := p.parents.erase id
        byParent := unfile p.byParent parent id }

/-- **The loop that makes room ends**, with what `makeRoom` computes.  It drops no more blocks than
there is no room for. -/
theorem Holds.eviction_ends (h : p.Holds l) (hcapacity : p.capacity ≠ 0) :
    EndsIn evictionRound (l.length + 1 - p.capacity) p (p.makeRoom p.order) := by
  induction l generalizing p with
  | nil =>
    have hroom : p.size < p.capacity := by
      rw [h.size_eq]
      exact Nat.pos_of_ne_zero hcapacity
    rw [makeRoom_of_lt hroom, show [].length + 1 - p.capacity = 0 by rw [List.length_nil]; omega]
    exact .done (if_pos hroom)
  | cons b l ih =>
    have hsize := h.size_eq
    by_cases hroom : p.size < p.capacity
    · rw [makeRoom_of_lt hroom, show (b :: l).length + 1 - p.capacity = 0 by omega]
      exact .done (if_pos hroom)
    · have hfound : p.parents.find? b.id = some b.parent :=
        (h.parents b.id b.parent).2 ⟨b, List.mem_cons_self, rfl, rfl⟩
      have hdrop : p.dropOldest p.order = { p with
          parents := p.parents.erase b.id
          byParent := unfile p.byParent b.parent b.id
          order := l.map Block.id } := by
        rw [h.order_eq, List.map_cons, dropOldest, hfound]
      have hmake : p.makeRoom p.order = (p.dropOldest p.order).makeRoom (l.map Block.id) := by
        rw [hdrop, h.order_eq, List.map_cons, OrphanPool.makeRoom, if_neg hroom, hfound]
        exact (makeRoom_withOrder _ _ _).symm
      have hrounds : (b :: l).length + 1 - p.capacity = l.length + 1 - p.capacity + 1 := by
        rw [List.length_cons] at hsize ⊢
        omega
      rw [hmake, hdrop, hrounds]
      refine .next ?_ (ih h.tail hcapacity)
      rw [evictionRound, if_neg hroom, hdrop]

/-! ### All operations -/

/-- **A pool of orphans is a bounded queue.**  Whatever was asked of it before, from the start on,
it answers each operation as the queue does.

* Its tables describe the blocks of the queue: the order, the parent on record for each block, and
  the blocks on file for each parent, with no file left empty.
* No identifier is there twice, and there are never more blocks than the capacity allows.
* A block that is not taken changes nothing.
* The loop that makes room ends, after one round if the pool is full and after none if it is not. -/
theorem behaves_as_queue (capacity : Nat) (ops : List OrphanOperation) :
    let pool := afterOperations OrphanPool.perform { capacity } ops
    let queue := afterOperations OrphanQueue.perform { capacity } ops
    (∀ op, (pool.perform op).1 = (queue.perform op).1) ∧
      (pool.capacity = capacity ∧ queue.capacity = capacity ∧ pool.Holds queue.blocks) ∧
      (queue.ids.Nodup ∧ queue.blocks.length ≤ capacity) ∧
      (∀ b, (pool.insert b).1 = false → (pool.insert b).2 = pool) ∧
      (capacity ≠ 0 → EndsIn evictionRound (if pool.size = capacity then 1 else 0) pool
        (pool.makeRoom pool.order)) := by
  intro pool queue
  have hfollows : pool.Follows queue := (follows_new capacity).afterOperations ops
  have hlimit : queue.capacity = capacity := OrphanQueue.capacity_afterOperations _ ops
  have hsame : pool.capacity = capacity := hfollows.capacity_eq.trans hlimit
  refine ⟨fun op => (hfollows.perform op).1, ⟨hsame, hlimit, hfollows.holds⟩,
    ⟨hfollows.holds.nodup, hlimit ▸ hfollows.length_le⟩, fun b hnot => ?_, fun hzero => ?_⟩
  · exact insert_eq_self hnot
  · have hends := hfollows.holds.eviction_ends (hsame ▸ hzero)
    have hsize := hfollows.holds.size_eq
    have hle := hfollows.length_le
    have hrounds : queue.blocks.length + 1 - pool.capacity =
        if pool.size = capacity then 1 else 0 := by
      split <;> omega
    rw [← hrounds]
    exact hends

/-- A block that waits for the null block. -/
def sampleOrphan (height : UInt64) : Block := ⟨sampleHeader height, []⟩

omit [Crypto] in
/-- The oldest of three orphans goes from a pool that keeps two, in one round. -/
theorem behaves_as_queue_full :
    letI := Crypto.transparent
    letI pool := afterOperations perform { capacity := 2 }
      [.insert (sampleOrphan 1), .insert (sampleOrphan 2)]
    2 ≠ 0 ∧ EndsIn evictionRound 1 pool (pool.makeRoom pool.order) ∧
      ((pool.insert (sampleOrphan 3)).2.takeChildren BlockId.null).1 =
        [sampleOrphan 2, sampleOrphan 3] := by
  let _ := Crypto.transparent
  obtain ⟨-, -, -, -, hends⟩ :=
    behaves_as_queue 2 [.insert (sampleOrphan 1), .insert (sampleOrphan 2)]
  have hfull : (afterOperations perform { capacity := 2 }
      [.insert (sampleOrphan 1), .insert (sampleOrphan 2)]).size = 2 := by decide +kernel
  rw [if_pos hfull] at hends
  exact ⟨by decide, hends (by decide), by decide +kernel⟩

end OrphanPool

end LedgerChain
