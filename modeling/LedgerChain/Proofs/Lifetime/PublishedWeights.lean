import LedgerChain.Proofs.Crypto.Transparent
import LedgerChain.Proofs.Lifetime.BestTip
import LedgerChain.Proofs.Lifetime.Pointers
import LedgerChain.Proofs.Node.Weights

/-!
# Published weights over a lifetime

The weight that a node publishes is that of the canonical blocks above the finalized block only
as long as its session has finalized nothing; otherwise what the session has finalized is counted too
(`Lifetime.published_weight_counts_session`).  A start counts anew from the finalized block.  So of
two nodes with the same canonical tip and the same finalized block the one that was restarted may
publish less (`Lifetime.published_weight_drops`).
-/

namespace LedgerChain

namespace Lifetime

variable [Crypto] {params : Params} {initial : State} {events : List LifeEvent} {n : Node}

/-- **The published weight counts what the session has finalized.**

Let `n` be the node of a lifetime at any moment.

* `n` has become what it is in a session after its last start, and when it started it published the
  weight of the canonical blocks above the finalized block.  It publishes this weight and that of the
  blocks that the session has finalized since: a path from the first finalized block up to the one
  that the status names now.  So the published weight is that of the canonical blocks above the
  finalized block exactly as long as nothing was finalized.
* Any two nodes with the same canonical tip and the same finalized block, of whatever lifetimes, have
  blocks of the same weight in between.
* If `n` is at its best and its finalized pointer is up to date, then after a restart without faults
  the canonical tip and the finalized block are the same, and the published weight is that of the
  canonical blocks above the finalized block, without those that were finalized. -/
theorem published_weight_counts_session (hlife : run params initial events = running n) :
    (∃ before pool session n₀ finalized, events = before ++ .restart pool :: session ∧
      (∀ event ∈ session, event.InSession) ∧
      run params initial (before ++ [.restart pool]) = running n₀ ∧
      n₀.status.weight = n₀.weightAbove ∧ n₀.Finalizes finalized n ∧
      n.status.weight = n.weightAbove + n.engine.weightOf finalized ∧
      (n.status.weight = n.weightAbove ↔ finalized = [])) ∧
    (∀ params' initial' events' m, params'.consensus = params.consensus →
      run params' initial' events' = running m →
      Store.DistinctIds (n.store.journal ++ m.store.journal) →
      m.status.tip = n.status.tip → m.status.finalized = n.status.finalized →
      m.weightAbove = n.weightAbove) ∧
    (Store.DistinctIds n.store.journal → n.AtBest →
      n.store.finalized = some n.status.finalized → ∀ pool,
      ∃ n', run params initial (events ++ [.setFaults {}, .restart pool]) = running n' ∧
        n'.status.tip = n.status.tip ∧ n'.status.finalized = n.status.finalized ∧
        n'.status.weight = n.weightAbove) := by
  obtain ⟨hn, hparams⟩ := (sound params initial events).node hlife
  have hpub : n.Published := (aligned_of_run hlife).published
  have hsame : ∀ params' initial' events' m, params'.consensus = params.consensus →
      run params' initial' events' = running m →
      Store.DistinctIds (n.store.journal ++ m.store.journal) →
      m.status.tip = n.status.tip → m.status.finalized = n.status.finalized →
      m.weightAbove = n.weightAbove := by
    intro params' initial' events' m hconsensus hlife' hids htip hfinalized
    obtain ⟨hm, hparams'⟩ := (sound params' initial' events').node hlife'
    refine Node.weightAbove_eq hn hm hpub (aligned_of_run hlife').published ?_ hids htip hfinalized
    rw [Node.engine, Node.engine, hparams, hparams', hconsensus]
  refine ⟨?_, hsame, fun hids hbest hfinalized pool => ?_⟩
  · obtain ⟨before, pool, session, n₀, s, rfl, hsession, hstart, hmoves⟩ := exists_last_start hlife
    have hbefore := sound params initial before
    obtain ⟨hn₀, -, -⟩ := Node.sound_of_start hbefore.journaled hbefore.weighed hstart
    obtain ⟨hw, finalized, hfin⟩ := hmoves.finalizes hn₀ (Node.weighed_of_start hstart)
    have hweight := hfin.weight_eq hn hw hpub hmoves.engine_eq
      fun r hr => Node.weight_root_of_start hstart hr
    refine ⟨before, pool, session, n₀, finalized, rfl, hsession, ?_,
      Node.weight_of_start hbefore.journaled hbefore.weighed hstart, hfin, hweight, ?_⟩
    · rw [run_append, Lifetime.next, hstart]
    · obtain ⟨r, r', -, -, hrises⟩ := hfin.rises
      rw [← hrises.weightOf_eq_zero_iff, ← hmoves.engine_eq, hweight]
      omega
  · have hR := linking_follows params.consensus
    have hkept := (kept hR initial events).node hlife
    have hs := hkept.kept.recoverable.withFaults {}
    obtain ⟨n', s', hstart⟩ := Node.exists_start hR hs hids rfl pool
    have hlife' : run params initial (events ++ [.setFaults {}, .restart pool]) = running n' := by
      rw [← List.singleton_append, ← List.append_assoc, run_append, run_append, hlife]
      simp only [Lifetime.next, setFaults, store, hstart]
    exact ⟨n', hlife', Node.weight_of_restart hR hkept hids hpub hbest
      (hfinalized.trans (congrArg _ (congrArg ChainStatus.finalized hpub))) hstart⟩

/-- Blocks become final when the next one is canonical. -/
def promptParams : Params := { easyParams with run := { finalityDepth := 1 } }

/-- A node makes two blocks, of which the first becomes final. -/
def finalizingEvents : List LifeEvent := [startEvent, authorEvent, authorEvent]

omit [Crypto] in
/-- One of two blocks is final.  Both are counted, and after a restart one of them. -/
theorem published_weight_counts_session_two :
    letI := Crypto.transparent
    ∃ (n n' n₀ : Node) (finalized : List Block) (pool : Mempool),
      run promptParams {} finalizingEvents = running n ∧ n₀.Finalizes finalized n ∧
      finalized ≠ [] ∧ n.status.weight = n.weightAbove + n.engine.weightOf finalized ∧
      n.status.weight = 2 ∧
      run promptParams {} (finalizingEvents ++ [.setFaults {}, .restart pool]) = running n' ∧
      n'.status.tip = n.status.tip ∧ n'.status.finalized = n.status.finalized ∧
      n'.status.weight = 1 := by
  let _ := Crypto.transparent
  have hnode : ((run promptParams {} finalizingEvents).node?.map fun n =>
      (n.status.weight, n.weightAbove, decide (Store.DistinctIds n.store.journal ∧
        n.store.finalized = some n.status.finalized))) = some (2, 1, true) := by decide +kernel
  obtain ⟨n, hn, hend⟩ := Option.map_eq_some_iff.1 hnode
  rw [node?_eq_some_iff] at hn
  rw [Prod.mk.injEq, Prod.mk.injEq] at hend
  obtain ⟨hweight, habove, hstore⟩ := hend
  obtain ⟨hids, hfinalized⟩ := of_decide_eq_true hstore
  obtain ⟨⟨-, -, -, n₀, finalized, -, -, -, -, hfin, hsum, hsame⟩, -, hrestart⟩ :=
    published_weight_counts_session hn
  have hbest : n.AtBest := atBest_of_run (by simp [finalizingEvents, startEvent, authorEvent]) hn
  obtain ⟨n', hn', htip, hroot, hanew⟩ := hrestart hids hbest hfinalized { config := {} }
  refine ⟨n, n', n₀, finalized, _, hn, hfin, fun hnil => ?_, hsum, hweight, hn', htip, hroot,
    hanew.trans habove⟩
  rw [← hsame, hweight, habove] at hnil
  cases hnil

omit [Crypto] in
/-- A node is restarted, and publishes less of the same chain. -/
theorem published_weight_drops :
    letI := Crypto.transparent
    ∃ n n', run promptParams {} finalizingEvents = running n ∧
      run promptParams {} (finalizingEvents ++ [startEvent]) = running n' ∧
      n'.status.tip = n.status.tip ∧ n'.status.finalized = n.status.finalized ∧
      n.status.weight ≠ n.weightAbove ∧ n'.status.weight ≠ n.status.weight := by
  let _ := Crypto.transparent
  have hboth : ((run promptParams {} finalizingEvents).node?.bind fun n =>
      (run promptParams {} (finalizingEvents ++ [startEvent])).node?.map fun n' =>
        decide (n'.status.tip = n.status.tip ∧ n'.status.finalized = n.status.finalized ∧
          n.status.weight ≠ n.weightAbove ∧ n'.status.weight ≠ n.status.weight)) = some true := by
    decide +kernel
  obtain ⟨n, hn, hrest⟩ := Option.bind_eq_some_iff.1 hboth
  obtain ⟨n', hn', hsame⟩ := Option.map_eq_some_iff.1 hrest
  exact ⟨n, n', node?_eq_some_iff.1 hn, node?_eq_some_iff.1 hn', of_decide_eq_true hsame⟩

end Lifetime

end LedgerChain
