import LedgerChain.Proofs.Crypto.Transparent
import LedgerChain.Proofs.Lifetime.Basic
import LedgerChain.Proofs.Node.Convergence

/-!
# Nodes that import the same blocks agree

Nodes that start empty and import the same set of valid blocks end with the same tree and the same
status, in whatever order the blocks come in and however often.
-/

namespace LedgerChain

namespace Lifetime

open Node

variable [Crypto] {params : Params} {initial : State} {tips : List ChainTip}

/-- **Convergence.**  A node that starts on an empty store, without faults and with room for all
orphans, and is handed a set of valid blocks too short to be finalized, in any order and with
repeats, rejects none, ends with exactly the set in its tree and no orphan left, and publishes the
best tip of the tree.  The status it publishes does not depend on the order. -/
theorem imports_converge (hset : BlockSet params (Genesis.tip params initial) tips) :
    ∃ status, ∀ pool, ∃ n s, Node.start params {} pool initial = (.ok n, s) ∧
      ∀ order, (∀ tip, tip ∈ order ↔ tip ∈ tips) →
        ∃ answers n', n.handleAll (deliveries order) = (answers, n') ∧
          (∀ answer ∈ answers, ∃ result, answer = .imported (.ok result) ∧
            result.isRejected = false) ∧
          n'.Gathered (Genesis.tip params initial) tips ∧
          n'.status = status ∧ n'.forkChoice.tree.IsBest status.tip := by
  have hstarts : ∀ pool, ∃ n s, Node.start params {} pool initial = (.ok n, s) :=
    exists_start (linking_follows params.consensus) Recoverable.empty
      Store.DistinctIds.empty rfl
  obtain ⟨m, s₀, hm⟩ := hstarts { config := {} }
  have hall : ∀ tip, tip ∈ tips ↔ tip ∈ tips := fun _ => Iff.rfl
  obtain ⟨-, m', -, -, hgathered, -⟩ := gathered_of_start hset hm hall
  refine ⟨m'.forkChoice.status, fun pool => ?_⟩
  obtain ⟨n, s, hn⟩ := hstarts pool
  refine ⟨n, s, hn, fun order horder => ?_⟩
  obtain ⟨answers, n', hrun, hanswers, hgathered', hpublished⟩ := gathered_of_start hset hn horder
  have hstatus := hgathered'.status_eq hset hgathered
  refine ⟨answers, n', hrun, hanswers, hgathered', hpublished.trans hstatus, ?_⟩
  rw [← hstatus]
  exact hgathered'.best

/-- A block without extrinsics, sealed from a nonce on. -/
def emptyBlock (parent : ChainTip) (nonceStart : UInt64) : Option ChainTip :=
  ((Candidate.prepare parent []).1.complete (.ofRule easyParams.consensus.sealRule) parent
    { nonceStart }).toOption

/-- Two blocks on genesis, and a third one on the first of them. -/
def smallFork : List ChainTip :=
  let low := emptyBlock (Genesis.tip easyParams {}) 0
  let side := emptyBlock (Genesis.tip easyParams {}) 1
  let high := low.bind fun parent => emptyBlock parent 0
  [low, side, high].reduceOption

omit [Crypto] in
/-- The blocks of a fork, with the highest one first. -/
theorem imports_converge_smallFork :
    letI := Crypto.transparent
    BlockSet easyParams (Genesis.tip easyParams {}) smallFork ∧ smallFork.length = 3 ∧
      ∃ status n s answers n', Node.start easyParams {} { config := {} } {} = (.ok n, s) ∧
        n.handleAll (deliveries smallFork.reverse) = (answers, n') ∧
        n'.Gathered (Genesis.tip easyParams {}) smallFork ∧ n'.status = status ∧
        n'.forkChoice.tree.IsBest status.tip := by
  let _ := Crypto.transparent
  have hset : BlockSet easyParams (Genesis.tip easyParams {}) smallFork :=
    ⟨by decide +kernel, by decide +kernel, by decide +kernel, by decide +kernel,
      256, rfl, by decide +kernel⟩
  obtain ⟨status, hall⟩ := imports_converge hset
  obtain ⟨n, s, hstart, horders⟩ := hall { config := {} }
  obtain ⟨answers, n', hrun, -, hgathered, hstatus, hbest⟩ :=
    horders smallFork.reverse fun tip => List.mem_reverse
  exact ⟨hset, by decide +kernel, status, n, s, answers, n', hstart, hrun, hgathered, hstatus,
    hbest⟩

end Lifetime

end LedgerChain
