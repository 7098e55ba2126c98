import LedgerChain.Proofs.Crypto.Transparent
import LedgerChain.Proofs.Lifetime.Archive
import LedgerChain.Proofs.Lifetime.Session
import LedgerChain.Proofs.Node.Pointers

/-!
# Memory and store agree

**Fork choice, the published status and the store say the same of a node's chain**
(`Lifetime.pointers_agree`), between any two calls and whatever writes failed before.  Only the
finalized pointer may lag behind, and the next move of the canonical tip, or a shutdown, brings it up
to date as soon as pointers can be written.
-/

namespace LedgerChain

namespace Lifetime

variable [Crypto] {params : Params} {initial : State} {events : List LifeEvent} {n : Node}

theorem aligned_of_run (hlife : run params initial events = running n) : n.Aligned :=
  node_induct (fun hj hw hstart => Node.aligned_of_start hj hw hstart)
    (fun hm ha hmove => hmove.aligned hm ha) hlife

/-- **Memory, status and store agree.**

Let `n` be the node of a lifetime at any moment.

* The canonical pointer points to the canonical tip.
* The published status is that of fork choice.
* Every block of the tree is stored; if different headers have different identifiers, it is stored
  with its state under its identifier.
* The finalized pointer is the identifier of a block that was written, and the last finalized block
  is that block or descends from it.
* After any later decision of the session that moves the canonical tip, and after a shutdown, the
  finalized pointer points to the last finalized block, unless another one was written last and
  pointers cannot be written.
* In particular, if pointers can be written, it points there after a shutdown and after any operation
  that moved the canonical tip. -/
theorem pointers_agree (hlife : run params initial events = running n) :
    n.store.canonical = some n.forkChoice.best ∧
    n.status = n.forkChoice.status ∧
    (∀ id e, n.forkChoice.tree.find? id = some e → n.store.blocks.contains id = true ∧
      (Store.DistinctIds n.store.journal →
        n.store.blocks.find? id = some ⟨e.tip.block, e.tip.state⟩)) ∧
    (∃ b state root, .block b state ∈ n.store.journal ∧ n.store.finalized = some b.id ∧
      n.forkChoice.finalized? = some root ∧ root.Descends b) ∧
    (∀ k tip outcome update, n.Session k → k.Heavy tip →
      (k.offer tip).1 = .ok (outcome, update) → outcome.changedCanonical = true →
      (k.offer tip).2.store.finalized = some (k.offer tip).2.forkChoice.tree.root ∨
        (k.storedFinalized ≠ (k.offer tip).2.forkChoice.tree.root ∧
          k.store.pointerFault .finalized = true)) ∧
    (n.shutdown.2.store.finalized = some n.shutdown.2.forkChoice.tree.root ∨
      (n.storedFinalized ≠ n.forkChoice.tree.root ∧ n.store.pointerFault .finalized = true)) ∧
    ∀ operation, n.store.pointerFault .finalized = false →
      (operation = .shutdown ∨ (n.perform operation).forkChoice.best ≠ n.forkChoice.best) →
      (n.perform operation).store.finalized = some (n.perform operation).forkChoice.tree.root := by
  obtain ⟨hn, -⟩ := (sound params initial events).node hlife
  have ha := aligned_of_run hlife
  -- every moment of the session is aligned
  have haligned : ∀ {k}, n.Session k → k.Aligned := fun hk =>
    (hk.induct (fun hm ha hmove => hmove.aligned hm ha) hn ha).2
  refine ⟨ha.canonical, ha.published, fun id e he => ⟨hn.stored he, fun hids => ?_⟩, ?_,
    fun k tip outcome update hk hheavy hoffer hchanged => ?_, ?_,
    fun operation hfault hmoved => ?_⟩
  · exact ((kept (linking_follows _) initial events).node hlife).find?_stored hids he
  · obtain ⟨b, state, hmem, hid, root, hroot, hdesc⟩ := ha.final
    exact ⟨b, state, root, hmem, hid ▸ ha.finalized, hroot, hdesc⟩
  · have hlater : n.Session (k.offer tip).2 := hk.tail (.step (.offer hheavy))
    exact (Node.upToDate_or_offer (hk.sound hn) hheavy hoffer hchanged).imp_left
      (haligned hlater).finalized_eq
  · have hlater : n.Session n.shutdown.2 := .single (.step (.shutdown n))
    exact (Node.upToDate_or_shutdown hn).imp_left (haligned hlater).finalized_eq
  · have hrun := Node.admits_heavy.perform hn.wellFormed operation
    refine (haligned (.of_run hrun)).finalized_eq ((hrun.upToDate_or hn hfault).elim id ?_)
    intro hstill
    rcases hmoved with rfl | hmoved
    · refine (Node.upToDate_or_shutdown hn).resolve_right fun hbad => ?_
      rw [hfault] at hbad
      cases hbad.2
    · exact absurd hstill.best_eq hmoved

/-- The finalized pointer of a node cannot be written while it makes a block. -/
def laggingEvents : List LifeEvent :=
  [startEvent, .setFaults { finalizedWrites := true }, authorEvent, .setFaults {}]

omit [Crypto] in
/-- A finalized pointer that lags behind is up to date after a shutdown. -/
theorem pointers_agree_after_lag :
    letI := Crypto.transparent
    ∃ n, run { easyParams with run := { finalityDepth := 0 } } {} laggingEvents = running n ∧
      n.store.finalized ≠ some n.forkChoice.tree.root ∧
      n.store.canonical = some n.forkChoice.best ∧
      (n.perform .shutdown).store.finalized =
        some (n.perform .shutdown).forkChoice.tree.root := by
  let _ := Crypto.transparent
  have hnode : ((run { easyParams with run := { finalityDepth := 0 } } {}
      laggingEvents).node?.map fun n =>
        (decide (n.store.finalized = some n.forkChoice.tree.root),
          n.store.pointerFault .finalized)) = some (false, false) := by decide +kernel
  obtain ⟨n, hn, hlag⟩ := Option.map_eq_some_iff.1 hnode
  rw [node?_eq_some_iff] at hn
  rw [Prod.mk.injEq] at hlag
  obtain ⟨hcan, -, -, -, -, -, hafter⟩ := pointers_agree hn
  exact ⟨n, hn, of_decide_eq_false hlag.1, hcan, hafter .shutdown hlag.2 (Or.inl rfl)⟩

end Lifetime

end LedgerChain
