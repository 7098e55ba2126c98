import LedgerChain.Proofs.Crypto.Transparent
import LedgerChain.Proofs.Lifetime.Session

/-!
# The canonical tip over a lifetime

**The canonical tip is the best tip whenever a block was accepted, and never gets worse**
(`Lifetime.canonical_tip_best_and_rising`).  This holds of every node of a lifetime, at every moment
of its session, whatever pointers could not be written before and whatever was finalized.

There is one exception.  A block whose pointer could not be written stays in the tree, and an author
that tries again makes the same block again.  It is known, so the canonical tip stays below it, and
yet the author succeeds (`Lifetime.made_block_left_behind`).
-/

namespace LedgerChain

namespace Lifetime

variable [Crypto] {params : Params} {initial : State} {events : List LifeEvent} {m n : Node}

theorem atBest_of_run
    (hfaults : ∀ faults, .setFaults faults ∈ events → faults.pointerWrites = false)
    (hlife : run params initial events = running n) : n.AtBest :=
  node_induct_of_faults (F := fun faults => faults.pointerWrites = false) rfl
    (fun hj hw hstart => (Node.sound_of_start hj hw hstart).2.1)
    (fun operation hm hwrites hbest =>
      (Node.admits_heavy.perform hm.wellFormed operation).atBest hm hbest hwrites)
    (fun _ hbest => hbest) hfaults hlife

/-- **The canonical tip is the best tip, and never goes backwards.**

Let `n` be what a node `m` of a lifetime has become at some moment of its session.

* An accepted import leaves the node at its best.
* A block that the node made leaves it at its best, unless the block was in the tree before and the
  canonical tip stayed right below it; then the node is not at its best.
* The best tip beats all blocks of the tree, and no other block does.
* The canonical tip is the one of `m`, or better, and so it is at the end of any session of `m`,
  also if the store begins to fail, or is repaired, between two calls.
* A decision that moves the canonical tip improves its rank; any other leaves rank and status as
  they are. -/
theorem canonical_tip_best_and_rising (hlife : run params initial events = running m)
    (hrun : Node.Run Node.Heavy m n) :
    (∀ b outcome n', n.importBlock b = (.ok (.accepted outcome), n') → n'.AtBest) ∧
    (∀ config timelines r answers n', n.author config timelines = (⟨.ok r, answers⟩, n') →
      (r.outcome.changedCanonical = true ∧ n'.AtBest) ∨
        (r.outcome = .ignored .alreadyKnown ∧
          (n'.AtBest ∨ n'.forkChoice.best = r.block.parent ∧
            (Store.DistinctIds n'.store.journal → ¬ n'.AtBest)))) ∧
    (n.AtBest → n.forkChoice.best ∈ n.forkChoice.tree.tips ∧
      ∀ b e, n.forkChoice.tree.find? b = some e → b ≠ n.forkChoice.best →
        ForkChoice.beats n.rank (b, e.cumulativeWeight) = true ∧ ¬ n.forkChoice.tree.IsBest b) ∧
    m.NoWorse n ∧
    (∀ session, (∀ event ∈ session, event.InSession) →
      ∃ n', run params initial (events ++ session) = running n' ∧ m.NoWorse n') ∧
    (∀ tip, n.Heavy tip →
      ((∃ outcome update, (n.offer tip).1 = .ok (outcome, update) ∧
          outcome.changedCanonical = true) ∧
          ForkChoice.beats (n.offer tip).2.rank n.rank = true) ∨
        ((∀ outcome update, (n.offer tip).1 = .ok (outcome, update) →
          outcome.changedCanonical = false) ∧
          (n.offer tip).2.rank = n.rank ∧ (n.offer tip).2.status = n.status)) := by
  have hsound := sound params initial events
  obtain ⟨hm, -⟩ := hsound.node hlife
  have hn := Node.Run.sound hrun hm
  refine ⟨fun b outcome n' h => Node.atBest_importBlock hn.wellFormed h,
    fun config timelines r answers n' h => Node.atBest_or_held_author hn h, fun hat => ?_,
    Node.Run.noWorse hrun hm.wellFormed, fun session hsession => ?_,
    fun tip hheavy => Node.rank_offer_cases hn.wellFormed hheavy.weight_pos⟩
  · obtain ⟨g, hg, -⟩ := hn.wellFormed.best
    refine ⟨hat.mem_tips, fun b e he hne => ⟨?_, fun hb => ?_⟩⟩
    · rw [Node.rank, ForkChoice.rank_eq hg]
      exact hat.beats hg he hne
    · exact hne (hb.unique hn.wellFormed.tree hat)
  · obtain ⟨n', hn', hsession'⟩ := exists_run_append hlife hsession
    exact ⟨n', hn', hsession'.noWorse hm⟩

/-! ### Two small lifetimes -/

omit [Crypto] in
theorem canonical_tip_best_and_rising_one_block :
    letI := Crypto.transparent
    ∃ m, run easyParams {} [startEvent, authorEvent] = running m ∧ m.forkChoice.bestHeight = 1 ∧
      (m.AtBest → m.forkChoice.best ∈ m.forkChoice.tree.tips) := by
  let _ := Crypto.transparent
  have hnode : ((run easyParams {} [startEvent, authorEvent]).node?.map fun m =>
      m.forkChoice.bestHeight) = some 1 := by decide +kernel
  obtain ⟨m, hm, hheight⟩ := Option.map_eq_some_iff.1 hnode
  rw [node?_eq_some_iff] at hm
  obtain ⟨-, -, hbest, -⟩ := canonical_tip_best_and_rising hm .refl
  exact ⟨m, hm, hheight, fun hat => (hbest hat).1⟩

omit [Crypto] in
/-- **An author succeeds with a block that stays out of the canonical chain**: the block was in the
tree, and the canonical tip is still below it. -/
theorem made_block_left_behind :
    letI := Crypto.transparent
    ∃ m r, run easyParams {} heldBackEvents = running m ∧
      (m.author {} fun _ => {}).1.result = .ok r ∧ r.outcome = .ignored .alreadyKnown ∧
      ¬ (m.author {} fun _ => {}).2.AtBest := by
  let _ := Crypto.transparent
  have hnode : ((run easyParams {} heldBackEvents).node?.map fun m =>
      (((m.author {} fun _ => {}).1.result.toOption.map fun r => r.outcome),
        decide ((m.author {} fun _ => {}).2.forkChoice.best ∈
          (m.author {} fun _ => {}).2.forkChoice.tree.tips))) =
      some (some (.ignored .alreadyKnown), false) := by decide +kernel
  obtain ⟨m, hm, hend⟩ := Option.map_eq_some_iff.1 hnode
  rw [node?_eq_some_iff] at hm
  rw [Prod.mk.injEq] at hend
  obtain ⟨r, hr, hout⟩ := Option.map_eq_some_iff.1 hend.1
  refine ⟨m, r, hm, ?_, hout, fun hat => of_decide_eq_false hend.2 hat.mem_tips⟩
  rcases hres : (m.author {} fun _ => {}).1.result with e | r' <;> rw [hres] at hr
  · cases hr
  · cases hr
    rfl

end Lifetime

end LedgerChain
