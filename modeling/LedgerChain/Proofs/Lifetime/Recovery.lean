import LedgerChain.Proofs.Crypto.Transparent
import LedgerChain.Proofs.Lifetime.Archive
import LedgerChain.Proofs.Node.Recovery

/-!
# Recovery

**Whatever failed before and whenever a store was cut off, a node starts on it again**, with the
stored finalized block and all stored blocks above it.  If the old node was at its best, the new one
has the same canonical tip (`Lifetime.restart_recovers`).  Different headers are assumed to have
different identifiers.
-/

namespace LedgerChain

namespace Lifetime

/-- **Restart and crash recovery.**

* On the store that any first part of the writes of a lifetime makes, a node starts, and has
  recovered the store: its tree consists of the stored finalized block and the stored blocks above
  it, and its canonical tip, to which the canonical pointer points, is the best tip of this tree.
* On the store of a node at work, a new node takes up its work: if the old node was at its best, it
  has the same canonical tip with the same height and state, and if the finalized pointer was up to
  date, it has the same tree, with the weights counted from the root. -/
theorem restart_recovers [Crypto] {params : Params} {initial : State} {events : List LifeEvent}
    (hids : Store.DistinctIds (run params initial events).store.journal) :
    (∀ w, w <:+ (run params initial events).store.journal → ∀ pool,
      ∃ n s, Node.start params (Store.ofJournal w) pool initial = (.ok n, s) ∧
        n.Recovered params initial (Store.ofJournal w)) ∧
    (∀ m, run params initial events = running m → ∀ pool,
      ∃ n s, Node.start params { m.store with faults := {} } pool initial = (.ok n, s) ∧
        m.Resumes n) := by
  have hR := linking_follows params.consensus
  have hkept := kept hR initial events
  have hsound := sound params initial events
  constructor
  · intro w hw pool
    have hs : Recoverable (Follows (.ofRule params.consensus.sealRule)) (Genesis.tip params initial)
        (Store.ofJournal w) := hkept.recoverable.of_suffix hw (Store.ofJournal w).faults
    have hids' : Store.DistinctIds (Store.ofJournal w).journal := by
      rw [Store.journal_ofJournal]
      exact hids.of_suffix hw
    obtain ⟨n, s, hstart⟩ := Node.exists_start hR hs hids' (Store.faults_ofJournal w) pool
    exact ⟨n, s, hstart,
      Node.recovered_of_start hR hs (hsound.weighed_ofJournal hw) hids' hstart⟩
  · intro m hm pool
    rw [hm] at hkept hids
    have hn := hkept.node rfl
    obtain ⟨n, s, hstart⟩ :=
      Node.exists_start hR (hn.kept.recoverable.withFaults {}) hids rfl pool
    exact ⟨n, s, hstart, Node.resumes_of_start hR hn hids hstart⟩

/-- The block whose pointer could not be written is recovered. -/
theorem restart_recovers_after_failed_pointer :
    letI := Crypto.transparent
    Store.DistinctIds (run easyParams {} heldBackEvents).store.journal ∧
      (run easyParams {} heldBackEvents).store.canonical = some (Genesis.tip easyParams {}).id ∧
      ∃ n s, Node.start easyParams
          (Store.ofJournal (run easyParams {} heldBackEvents).store.journal) { config := {} } {} =
            (.ok n, s) ∧
        n.Recovered easyParams {}
          (Store.ofJournal (run easyParams {} heldBackEvents).store.journal) ∧
        n.forkChoice.best ≠ (Genesis.tip easyParams {}).id := by
  let _ := Crypto.transparent
  set l := run easyParams {} heldBackEvents with hl
  have hids : Store.DistinctIds l.store.journal := by decide +kernel
  have hbehind : l.store.canonical = some (Genesis.tip easyParams {}).id := by decide +kernel
  obtain ⟨n, s, hstart, hrec⟩ :=
    (restart_recovers hids).1 l.store.journal (List.suffix_refl _) { config := {} }
  refine ⟨hids, hbehind, n, s, hstart, hrec, ?_⟩
  have hmoved : ((Node.start easyParams (Store.ofJournal l.store.journal)
      { config := {} } {}).1.toOption.map fun n => n.forkChoice.best) ≠
        some (Genesis.tip easyParams {}).id := by decide +kernel
  rw [hstart] at hmoved
  exact fun heq => hmoved (congrArg some heq)

end Lifetime

end LedgerChain
