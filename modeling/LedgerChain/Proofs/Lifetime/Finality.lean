import LedgerChain.Proofs.Crypto.Transparent
import LedgerChain.Proofs.Lifetime.Session
import LedgerChain.Proofs.Node.Finality

/-!
# Finality over a lifetime

**What is final stays final** (`Lifetime.finality_safe`): over the session of a node of any lifetime
the last finalized block only moves up to its descendants, the canonical tip stays on or above it,
and no final block is retracted.  This holds whatever is imported and made, whatever writes fail,
and also when a heavier branch that is shorter takes over.
-/

namespace LedgerChain

namespace Lifetime

variable [Crypto] {params : Params} {initial : State} {events : List LifeEvent} {k m n : Node}

theorem atDepth_of_run (hlife : run params initial events = running n) : n.AtDepth :=
  node_induct (fun _ _ hstart => Node.atDepth_of_start hstart)
    (fun hm hd hmove => hmove.atDepth hm.wellFormed hd) hlife

/-- **Finality is safe.**

Let `m` be a node of a lifetime, `k` what it has become at some moment of its session, and `n` what
it has become at that moment or later.

* The last finalized block of `n` descends from that of `k`, and the canonical tip descends from the
  last finalized block.
* No outcome of `n`'s decisions retracts a block that is final for `k`.  After a decision that moves
  the canonical tip, the last finalized block descends from the one before and lies below the
  canonical tip at the height at which blocks become final, but no lower than the one before.
* In particular no import, and no block that is made, has an outcome with such a retracted block.
* All operations of a node and all faults of its store belong to its session. -/
theorem finality_safe (hlife : run params initial events = running m) (hk : m.Session k)
    (hn : k.Session n) :
    (∃ old new top, k.forkChoice.finalized? = some old ∧ n.forkChoice.finalized? = some new ∧
      n.canonicalTip? = some top ∧ new.Descends old ∧ top.block.Descends new) ∧
    (∀ tip outcome update, n.Heavy tip → (n.offer tip).1 = .ok (outcome, update) →
      (∀ b ∈ outcome.retracted, ¬ k.Final b) ∧
      (outcome.changedCanonical = true →
        ∃ old new top, n.forkChoice.finalized? = some old ∧
          (n.offer tip).2.forkChoice.finalized? = some new ∧
          (n.offer tip).2.canonicalTip? = some top ∧ new.Descends old ∧
          top.block.Descends new ∧
          new.height = max old.height (top.height - params.run.finalityDepth))) ∧
    (∀ b outcome, (n.importBlock b).1 = .ok (.accepted outcome) →
      ∀ x ∈ outcome.retracted, ¬ k.Final x) ∧
    (∀ config timelines r, (n.author config timelines).1.result = .ok r →
      ∀ x ∈ r.outcome.retracted, ¬ k.Final x) ∧
    ∀ session, (∀ event ∈ session, event.InSession) →
      ∃ n', run params initial (events ++ session) = running n' ∧ m.Session n' := by
  obtain ⟨hm, hparams⟩ := (sound params initial events).node hlife
  have hksound := hk.sound hm
  have hnsound := hn.sound hksound
  -- the depth is that of the parameters all through the session
  have hdepth : n.forkChoice.finalityDepth = params.run.finalityDepth := by
    have hall : m.Session n := hk.trans hn
    have hn' := hall.atDepth hm (atDepth_of_run hlife)
    rw [hn', hall.params_eq, hparams]
  refine ⟨?_, fun tip outcome update hheavy hoffer => ⟨fun b hb => ?_, fun hchanged => ?_⟩,
    fun b outcome himport x hx => ?_, fun config timelines r hauthor x hx => ?_,
    fun session hsession => exists_run_append hlife hsession⟩
  · obtain ⟨old, new, hold, hnew, hdesc⟩ := hn.descends hksound
    obtain ⟨new', top, hnew', htop, -, habove⟩ := hnsound.wellFormed.rooted.tip_descends
    rw [hnew] at hnew'
    cases hnew'
    exact ⟨old, new, top, hold, hnew, htop, hdesc, habove⟩
  · exact Node.not_final_of_retracted hksound hn hoffer hb
  · rw [← hdepth]
    exact Node.exists_finalized_offer hnsound.wellFormed hheavy.weight_pos hoffer hchanged
  · obtain ⟨tip, update, hoffer⟩ := Node.exists_offer_of_importBlock himport
    exact Node.not_final_of_retracted hksound hn hoffer hx
  · obtain ⟨n', tip, update, hlater, hoffer⟩ := Node.exists_offer_of_author hnsound hauthor
    exact Node.not_final_of_retracted hksound (hn.trans hlater) hoffer hx

/-- Blocks become final as soon as they are canonical. -/
def shallowParams : Params := { easyParams with run := { finalityDepth := 0 } }

omit [Crypto] in
/-- A node finalizes the block that it makes. -/
theorem finality_safe_one_block :
    letI := Crypto.transparent
    ∃ m n old new, run shallowParams {} [startEvent] = running m ∧ m.Session n ∧
      m.forkChoice.finalized? = some old ∧ n.forkChoice.finalized? = some new ∧
      new.Descends old ∧ new.height = 1 := by
  let _ := Crypto.transparent
  have hnode : ((run shallowParams {} [startEvent]).node?.map fun m =>
      (m.perform (.author {} fun _ => {})).forkChoice.tree.rootHeight) = some 1 := by
    decide +kernel
  obtain ⟨m, hm, hheight⟩ := Option.map_eq_some_iff.1 hnode
  rw [node?_eq_some_iff] at hm
  have hsound := ((sound shallowParams {} [startEvent]).node hm).1
  have hsession : m.Session (m.perform (.author {} fun _ => {})) :=
    .of_run (Node.admits_heavy.perform hsound.wellFormed _)
  obtain ⟨⟨old, new, -, hold, hnew, -, hdesc, -⟩, -⟩ := finality_safe hm .refl hsession
  exact ⟨m, _, old, new, hm, hsession, hold, hnew, hdesc,
    (ForkChoice.height_of_finalized? hnew).trans hheight⟩

end Lifetime

end LedgerChain
