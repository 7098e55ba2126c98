import LedgerChain.Node.Author
import LedgerChain.Proofs.Node.Decide

/-!
# Nodes that remember nothing

A node without a memory of invalid blocks (`Node.forgetful`) is what nodes with memories of
different sizes have in common.  The memory is read and written by imports only; whatever else a
node does, it does the same way without it.
-/

namespace LedgerChain

namespace Node

/-- The node without its memory of invalid blocks, and with no room for one. -/
def forgetful (n : Node) : Node :=
  { n with
    params := { n.params with run := { n.params.run with invalidCacheSize := 0 } }
    invalid := ⟨0, []⟩ }

variable (n : Node)

@[simp] theorem store_forgetful : n.forgetful.store = n.store := rfl

@[simp] theorem pool_forgetful : n.forgetful.pool = n.pool := rfl

@[simp] theorem forkChoice_forgetful : n.forgetful.forkChoice = n.forkChoice := rfl

@[simp] theorem orphans_forgetful : n.forgetful.orphans = n.orphans := rfl

@[simp] theorem storedFinalized_forgetful : n.forgetful.storedFinalized = n.storedFinalized := rfl

@[simp] theorem flags_forgetful : n.forgetful.flags = n.flags := rfl

@[simp] theorem consensus_forgetful : n.forgetful.params.consensus = n.params.consensus := rfl

@[simp] theorem engine_forgetful : n.forgetful.engine = n.engine := rfl

theorem reject_forgetful (id : BlockId) (cause : ImportError) :
    n.forgetful.reject id cause = (.rejected cause, n.forgetful) := by
  rw [reject]
  split <;> rfl

theorem forgetful_reject (id : BlockId) (cause : ImportError) :
    (n.reject id cause).2.forgetful = n.forgetful := by
  rw [reject]
  split <;> rfl

theorem storeFinalized_forgetful :
    n.forgetful.storeFinalized = n.storeFinalized.map forgetful := by
  by_cases hdone : n.storedFinalized = n.forkChoice.tree.root
  · simp only [storeFinalized, storedFinalized_forgetful, forkChoice_forgetful, hdone, if_true]
    rfl
  · simp only [storeFinalized, storedFinalized_forgetful, forkChoice_forgetful, store_forgetful,
      hdone, if_false]
    cases n.store.setPointer .finalized n.forkChoice.tree.root <;> rfl

theorem settle_forgetful : n.forgetful.settle = n.settle.forgetful := by
  rw [settle, settle, forkChoice_forgetful]
  cases n.forkChoice.advanceRoot with
  | error e => rfl
  | ok report =>
    have hstore := (publish { n with forkChoice := report.2 }).storeFinalized_forgetful
    have hpub : publish { n.forgetful with forkChoice := report.2 } =
        (publish { n with forkChoice := report.2 }).forgetful := rfl
    simp only [hpub, hstore]
    cases (publish { n with forkChoice := report.2 }).storeFinalized <;> rfl

theorem shutdown_forgetful : n.forgetful.shutdown = (n.shutdown.1, n.shutdown.2.forgetful) := by
  rw [shutdown, shutdown, show n.forgetful.cancelAttempts = n.cancelAttempts.forgetful from rfl]
  generalize n.cancelAttempts = m
  have hset : m.forgetful.store.setPointer .canonical m.forgetful.forkChoice.best =
      m.store.setPointer .canonical m.forkChoice.best := rfl
  simp only [hset]
  cases m.store.setPointer .canonical m.forkChoice.best with
  | error e => rfl
  | ok store =>
    have hfinal : storeFinalized { m.forgetful with store } =
        (storeFinalized { m with store }).map forgetful :=
      storeFinalized_forgetful { m with store }
    simp only [hfinal]
    cases storeFinalized { m with store } with
    | error e => rfl
    | ok stored =>
      simp only [Except.map, store_forgetful]
      cases stored.store.flush <;> rfl

variable [Crypto]

theorem decide_forgetful (tip : ChainTip) :
    n.forgetful.decide tip = ((n.decide tip).1, (n.decide tip).2.forgetful) := by
  simp only [Node.decide, forkChoice_forgetful, store_forgetful]
  rcases n.forkChoice.consider tip with ⟨e | outcome, f⟩
  · rfl
  · cases hchanged : outcome.changedCanonical with
    | false => simp only [hchanged, Bool.not_false, if_true]; rfl
    | true =>
      simp only [hchanged, Bool.not_true, Bool.false_eq_true, if_false]
      cases n.store.setPointer .canonical f.best with
      | error e => cases f.rollback n.forkChoice.best <;> rfl
      | ok store =>
        have hsettle := settle_forgetful (cancelAttempts { n with forkChoice := f, store })
        exact congrArg (Prod.mk _) hsettle

theorem offer_forgetful (tip : ChainTip) :
    n.forgetful.offer tip = ((n.offer tip).1, (n.offer tip).2.forgetful) := by
  rw [offer, offer, store_forgetful]
  cases n.store.put tip.block tip.state with
  | error e => rfl
  | ok store => exact decide_forgetful { n with store } tip

theorem updatePool_forgetful (update : PoolUpdate) :
    n.forgetful.updatePool update = (n.updatePool update).forgetful := by
  rw [updatePool, updatePool]
  cases update.apply.isEmpty <;> rfl

theorem submitTip_forgetful (tip : ChainTip) :
    n.forgetful.submitTip tip = ((n.submitTip tip).1, (n.submitTip tip).2.forgetful) := by
  rw [submitTip_eq, submitTip_eq, offer_forgetful]
  rcases n.offer tip with ⟨e | ⟨outcome, update⟩, n'⟩
  · rfl
  · exact congrArg (Prod.mk _) (updatePool_forgetful n' update)

theorem submitExtrinsic_forgetful (x : Extrinsic) :
    n.forgetful.submitExtrinsic x =
      ((n.submitExtrinsic x).1, (n.submitExtrinsic x).2.forgetful) := by
  rw [submitExtrinsic, submitExtrinsic, pool_forgetful]
  cases n.pool.submit x <;> rfl

theorem holdOrphan_forgetful (b : Block) :
    n.forgetful.holdOrphan b = ((n.holdOrphan b).1, (n.holdOrphan b).2.forgetful) := by
  rw [holdOrphan, holdOrphan, orphans_forgetful]
  cases n.orphans with
  | none => rfl
  | some pool =>
    simp only
    split <;> rfl

theorem importUnknownParent_forgetful (b : Block) :
    n.forgetful.importUnknownParent b =
      ((n.importUnknownParent b).1, (n.importUnknownParent b).2.forgetful) := by
  by_cases hlow : b.height ≤ n.forkChoice.tree.rootHeight + 1
  · simp only [importUnknownParent, forkChoice_forgetful, hlow, if_true]
  · simp only [importUnknownParent, forkChoice_forgetful, store_forgetful, hlow, if_false]
    rcases n.store.getBlock b.parent with e | _ | stored
    · rfl
    · simp only [holdOrphan_forgetful]
    · rfl

theorem takeOrphans_forgetful (parent : BlockId) :
    n.forgetful.takeOrphans parent =
      ((n.takeOrphans parent).1, (n.takeOrphans parent).2.forgetful) := by
  rw [takeOrphans, takeOrphans, orphans_forgetful]
  cases n.orphans <;> rfl

omit [Crypto] in
theorem pullForBlock_forgetful (config : AuthoringConfig) :
    n.forgetful.pullForBlock config =
      ((n.pullForBlock config).1, (n.pullForBlock config).2.forgetful) := by
  have htip : n.forgetful.canonicalTip? = n.canonicalTip? := rfl
  rw [pullForBlock, pullForBlock, htip]
  cases n.canonicalTip? <;> rfl

end Node

end LedgerChain
