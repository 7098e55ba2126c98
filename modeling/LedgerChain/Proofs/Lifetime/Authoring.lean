import LedgerChain.Proofs.Crypto.Transparent
import LedgerChain.Proofs.Execution.Select
import LedgerChain.Proofs.Lifetime.BestTip
import LedgerChain.Proofs.Lifetime.Joining
import LedgerChain.Proofs.Node.Alone
import LedgerChain.Proofs.Node.Canonical

/-!
# What becomes of pulled extrinsics

**A block that extends the chain takes the extrinsics that were pulled for it with it**
(`Lifetime.pulled_extrinsics_kept`): they are in the canonical chain, or were left out since they do
not apply.  A block that is made on the best tip extends the chain.

A block whose pointer could not be written stays in the tree, above the canonical tip.  An author
that tries again does not look at it, and may succeed with a block that is out of the canonical
chain from the start.  The extrinsics of such a block are lost (`Lifetime.pulled_extrinsic_lost`).
-/

namespace LedgerChain

namespace Lifetime

open Node

variable [Crypto] {params : Params} {initial : State} {events : List LifeEvent} {n n' : Node}

/-- **Pulled extrinsics are kept.**  Let a node make a block, and let nothing else come in meanwhile.

* Every extrinsic that was pulled is in the block, or was left out with a reason.
* If the block extends the chain, it is in the canonical chain afterwards, whatever orphans it
  releases; so every extrinsic that was pulled is in the canonical chain, or was left out.
* The block extends the chain if the node is at its best and different headers have different
  identifiers.
* The node is at its best unless there was a time at which pointers could not be written. -/
theorem pulled_extrinsics_kept (hlife : run params initial events = running n)
    {config : AuthoringConfig} {timelines : Nat → Timeline} (halone : ∀ i, (timelines i).Alone)
    {r : AuthoredBlock} {answers : List TimelineAnswers}
    (h : n.author config timelines = (⟨.ok r, answers⟩, n')) :
    (∀ x ∈ (n.pool.pull config.maxExtrinsics).1,
      x ∈ r.block.extrinsics ∨ ∃ e, (x.id, e) ∈ r.excluded) ∧
    (r.outcome = .extended → n'.Canonical r.block ∧
      ∀ x ∈ (n.pool.pull config.maxExtrinsics).1,
        (∃ b, n'.Canonical b ∧ x ∈ b.extrinsics) ∨ ∃ e, (x.id, e) ∈ r.excluded) ∧
    (n.AtBest → Store.DistinctIds n'.store.journal → r.outcome = .extended) ∧
    ((∀ faults, .setFaults faults ∈ events → faults.pointerWrites = false) → n.AtBest) := by
  obtain ⟨hsound, -⟩ := (sound params initial events).node hlife
  obtain ⟨parent, ctx, tip, m, update, n₁, hparent, hmade, hblock, hexcluded, hchain, hmemory,
    hoffer, rfl⟩ := author_alone hsound.wellFormed halone h
  have hm : m.Sound := Step.sound (.aside hchain) hsound
  have horder : m.Orderly := orderly_of_orphans_eq hmemory.orphans (orderly hlife)
  have hfollows := Candidate.follows_of_complete hmade
  have hheavy : m.Heavy tip := hchain.heavy hfollows
  have hpulled : ∀ x ∈ (n.pool.pull config.maxExtrinsics).1,
      x ∈ r.block.extrinsics ∨ ∃ e, (x.id, e) ∈ r.excluded := by
    intro x hx
    rw [hblock, hexcluded, Candidate.extrinsics_of_complete hmade]
    rcases Candidate.mem_prepare_or parent hx with hin | ⟨e, hout⟩
    · exact Or.inl hin
    · exact Or.inr ⟨e, List.mem_map.2 ⟨_, hout, rfl⟩⟩
  refine ⟨hpulled, fun hextended => ?_, fun hbest hids => ?_,
    fun hfaults => atBest_of_run hfaults hlife⟩
  · rw [hextended] at hoffer
    have hcanonical := canonical_of_extended horder hm hheavy hoffer
    rw [← hblock] at hcanonical
    exact ⟨hcanonical, fun x hx => (hpulled x hx).imp_left fun hin => ⟨_, hcanonical, hin⟩⟩
  · have hoffered : (m.offer tip).1 = .ok (r.outcome, update) := by rw [hoffer]
    have hsame : (m.offer tip).2 = n₁ := by rw [hoffer]
    subst hsame
    have hpool : Run Heavy (m.offer tip).2 ((m.offer tip).2.updatePool update) :=
      .aside (sameChain_updatePool _ update)
    have hwf := wellFormed_offer hm.wellFormed hheavy.weight_pos
    have hrelease : Run Heavy (m.offer tip).2
        (((m.offer tip).2.updatePool update).releaseOrphans tip.id).2 :=
      hpool.trans (admits_heavy.releaseFrom (hpool.wellFormed hwf) _ _)
    exact extended_of_atBest hm (by rw [AtBest, hchain.forkChoice]; exact hbest)
      (by rw [canonicalTip?, hchain.forkChoice]; exact hparent) hheavy hfollows.parent_eq
      hfollows.height_eq (distinctIds_of_run hrelease hids) hoffered

/-! ### One extrinsic -/

/-- An extrinsic that sets a value. -/
def smallExtrinsic : Extrinsic := .ofCall (.set [1] [2]) 0

/-- A node starts, and an extrinsic is submitted to it. -/
def submittedEvents : List LifeEvent := [startEvent, .operate (.submitExtrinsic smallExtrinsic)]

omit [Crypto] in
/-- An extrinsic that a node pulls is in the canonical chain afterwards. -/
theorem pulled_extrinsics_kept_small :
    letI := Crypto.transparent
    ∃ n b, run easyParams {} submittedEvents = running n ∧
      smallExtrinsic ∈ (n.pool.pull 100).1 ∧
      (n.perform (.author {} fun _ => {})).Canonical b ∧ smallExtrinsic ∈ b.extrinsics := by
  let _ := Crypto.transparent
  have hnode : ((run easyParams {} submittedEvents).node?.map fun n =>
      ((n.pool.pull 100).1,
        (n.author {} fun _ => {}).1.result.toOption.map fun r => (r.outcome, r.excluded))) =
      some ([smallExtrinsic], some (.extended, [])) := by decide +kernel
  obtain ⟨n, hn, hend⟩ := Option.map_eq_some_iff.1 hnode
  rw [node?_eq_some_iff] at hn
  simp only [Prod.mk.injEq, Option.map_eq_some_iff, toOption_eq_some_iff] at hend
  obtain ⟨hpulled, r, hr, hextended, hnone⟩ := hend
  have hin : smallExtrinsic ∈ (n.pool.pull 100).1 := by
    rw [hpulled]
    exact List.mem_singleton_self _
  rcases hres : n.author {} fun _ => {} with ⟨⟨result, answers⟩, n'⟩
  rw [hres] at hr
  cases hr
  obtain ⟨-, hkept, -⟩ := pulled_extrinsics_kept hn (fun _ => ⟨rfl, rfl, rfl⟩) hres
  rcases (hkept hextended).2 smallExtrinsic hin with ⟨b, hb, hmem⟩ | ⟨e, hout⟩
  · exact ⟨n, b, hn, hin, by rw [perform, hres]; exact hb, hmem⟩
  · rw [hnone] at hout
    cases hout

omit [Crypto] in
/-- **An extrinsic gets lost**: it is pulled for a block whose pointer cannot be written, comes back,
and is pulled again for the same block.  That the block is known already goes unnoticed. -/
theorem pulled_extrinsic_lost :
    letI := Crypto.transparent
    ∃ n r, run easyParams {} (submittedEvents ++ heldBackEvents.tail) = running n ∧
      n.store.faults = {} ∧ (n.author {} fun _ => {}).1.result = .ok r ∧
      smallExtrinsic ∈ (n.pool.pull 100).1 ∧ (∀ e, (smallExtrinsic.id, e) ∉ r.excluded) ∧
      (n.author {} fun _ => {}).2.pool.contains smallExtrinsic.id = false ∧
      ∀ b, (n.author {} fun _ => {}).2.Canonical b → smallExtrinsic ∉ b.extrinsics := by
  let _ := Crypto.transparent
  have hnode : ((run easyParams {} (submittedEvents ++ heldBackEvents.tail)).node?.map fun n =>
      (decide (n.store.faults = {} ∧ (n.pool.pull 100).1 = [smallExtrinsic] ∧
          (n.author {} fun _ => {}).2.pool.contains smallExtrinsic.id = false),
        (n.author {} fun _ => {}).1.result.toOption.map fun r => decide (r.excluded = []),
        (n.author {} fun _ => {}).2.canonicalTip?.map fun top =>
          decide (top.height = 0 ∧ top.block.extrinsics = []))) =
      some (true, some true, some true) := by decide +kernel
  obtain ⟨n, hn, hend⟩ := Option.map_eq_some_iff.1 hnode
  rw [node?_eq_some_iff] at hn
  simp only [Prod.mk.injEq, decide_eq_true_eq, Option.map_eq_some_iff, toOption_eq_some_iff]
    at hend
  obtain ⟨⟨hfaults, hpulled, hgone⟩, ⟨r, hr, hnone⟩, top, htop, hheight, hempty⟩ := hend
  refine ⟨n, r, hn, hfaults, hr, ?_, fun e hout => ?_, hgone, ?_⟩
  · rw [hpulled]
    exact List.mem_singleton_self _
  · rw [hnone] at hout
    cases hout
  · -- the canonical chain is genesis
    rintro b ⟨top', htop', hdesc⟩ hmem
    rw [htop] at htop'
    cases htop'
    rw [hdesc.eq_of_height_zero hheight, hempty] at hmem
    cases hmem

end Lifetime

end LedgerChain
