import LedgerChain.Proofs.Execution.Verdicts
import LedgerChain.Proofs.Lifetime.Authoring
import LedgerChain.Proofs.Lifetime.Pools
import LedgerChain.Proofs.Mempool.Revision
import LedgerChain.Proofs.Node.FailedImport

/-!
# Authors that fail

An author that fails leaves no trace but in the pool (`Lifetime.failed_author_undone`): of the
extrinsics that it pulled those are gone that cannot be applied.  It has found nothing to make a block
of, or no seal, or could not write the block, or the pointer to it.  In the last case the block is
stored and attached by then, and stays so; the canonical tip has moved to it, and moves back.
-/

namespace LedgerChain

open Execution Node

variable [Crypto]

namespace Node

variable {n n' : Node} {config : AuthoringConfig} {timelines : Nat → Timeline}

/-- **An undisturbed author that fails moves nothing**, and puts back the extrinsics of the block that
it would have made. -/
theorem author_alone_error (hn : n.Sound) (halone : ∀ i, (timelines i).Alone)
    (hone : 1 ≤ config.maxAttempts) {e : AuthoringError} {answers : List TimelineAnswers}
    (h : n.author config timelines = (⟨.error e, answers⟩, n')) :
    ∃ parent, n.canonicalTip? = some parent ∧ KeepsPosition { n with pool := n'.pool } n' ∧
      n.SameMemory n' ∧
      n'.pool = ((n.pulledFor config).pool.giveBack
        (n.firstCandidate config parent).1.extrinsics).2 := by
  obtain ⟨parent, htip, ⟨hnone, all, hend⟩ | ⟨e, res, all, m, hatt, hend⟩ |
    ⟨block, outcome, res, all, m, -, hend⟩⟩ := author_alone_cases hn.wellFormed halone hone <;>
    rw [hend] at h <;> cases h
  · refine ⟨parent, htip, .refl _, ⟨rfl, rfl⟩, ?_⟩
    rw [hnone]
    rfl
  · obtain ⟨m, n₁, hchain, hmemory, hpool, rfl, hcases⟩ := attempt_failed_cases (halone 0) hatt
    have hpulled : n.SameChain (n.pulledFor config) := ⟨rfl, rfl, rfl, rfl, rfl, rfl⟩
    have hm : n.SameChain m := hpulled.trans hchain
    obtain ⟨hkeeps, hsame⟩ : m.KeepsPosition n₁ ∧ m.SameMemory n₁ := by
      rcases hcases with rfl | ⟨ctx, tip, e', hmade, hoffer⟩
      · exact ⟨.refl _, .refl _⟩
      · have hsound : m.Sound := Step.sound (.aside hm) hn
        refine ⟨keepsPosition_of_offer_error hsound.wellFormed
          (hchain.heavy (Candidate.follows_of_complete hmade)) hoffer, ?_⟩
        have hsame := sameMemory_offer m tip
        rwa [hoffer] at hsame
    refine ⟨parent, htip, ?_, ?_, ?_⟩
    · -- but for the pool, the node that the block was offered to is the one from before
      have hpools : SameChain { n with pool := m.pool } n := ⟨rfl, rfl, rfl, rfl, rfl, rfl⟩
      exact ((KeepsPosition.of_sameChain (hpools.trans hm) rfl).trans hkeeps).withPool _
    · exact ⟨hsame.orphans.trans hmemory.orphans, hsame.invalid.trans hmemory.invalid⟩
    · rw [giveBack, hkeeps.pool, hpool]

end Node

namespace Lifetime

variable {params : Params} {initial : State} {events : List LifeEvent} {n n' : Node}

/-- **A failed author is undone.**  If nothing comes in while a block is made, and no block comes of
it, then

* the canonical tip, the finalized block, the published status, the pointers in the store and the
  orphans are what they were,
* no sealing attempt is registered, and
* of the pending extrinsics those are gone that were pulled and that fail when all that were pulled
  are applied one after the other to the canonical state. -/
theorem failed_author_undone (hgiven : ∀ event ∈ events, ∃ limits, event.Pools limits)
    (hlife : run params initial events = running n) {config : AuthoringConfig}
    (hone : 1 ≤ config.maxAttempts) {timelines : Nat → Timeline} (halone : ∀ i, (timelines i).Alone)
    {e : AuthoringError} {answers : List TimelineAnswers}
    (h : n.author config timelines = (⟨.error e, answers⟩, n')) :
    KeepsPosition { n with pool := n'.pool } n' ∧ n'.orphans = n.orphans ∧ n'.attempts = [] ∧
    (n.pool.extrinsics.map Extrinsic.id = n.pool.pending ∧
      n'.pool.extrinsics.map Extrinsic.id = n'.pool.pending) ∧
    ∃ tip, n.canonicalTip? = some tip ∧ n'.pool.extrinsics =
      accepted (verdicts tip.state (n.pool.extrinsics.take config.maxExtrinsics)) ++
        n.pool.extrinsics.drop config.maxExtrinsics := by
  have hpool := grown_config hgiven hlife
  obtain ⟨tip, htip, hkeeps, hmemory, hback⟩ :=
    author_alone_error ((sound params initial events).node hlife).1 halone hone h
  have hlife' : run params initial (events ++ [.operate (.author config timelines)]) = running n' := by
    rw [run_append, hlife]
    show running (n.author config timelines).2 = running n'
    rw [h]
  have hgrown : n'.pool.Grown n.pool.config := by
    rw [hback]
    exact (hpool.pull _).giveBack _
  refine ⟨hkeeps, hmemory.orphans, attempts_eq_nil hlife',
    ⟨hpool.map_id_extrinsics, hgrown.map_id_extrinsics⟩, tip, htip, ?_⟩
  have hincluded : (n.firstCandidate config tip).1.extrinsics =
      accepted (verdicts tip.state (n.pool.extrinsics.take config.maxExtrinsics)) := by
    rw [firstCandidate, hpool.pulled_eq, ← (Prod.mk.inj (sift_eq_verdicts _ _)).1]
    rfl
  have hsub := accepted_sublist (verdicts tip.state (n.pool.extrinsics.take config.maxExtrinsics))
  rw [map_fst_verdicts] at hsub
  rw [hback, hincluded]
  exact hpool.extrinsics_giveBack_pulled _ hsub

/-! ### A pointer that cannot be written -/

/-- An extrinsic that removes what is not there. -/
def strayExtrinsic (key : UInt8) : Extrinsic := .ofCall (.remove [key]) 0

/-- Three extrinsics are pending, two of which cannot be applied, and pointers cannot be written. -/
def strandedEvents : List LifeEvent :=
  submittedEvents ++ [.operate (.submitExtrinsic (strayExtrinsic 3)),
    .operate (.submitExtrinsic (strayExtrinsic 4)), .setFaults { pointerWrites := true }]

omit [Crypto] in
/-- An author pulls the first two of three extrinsics, one of which cannot be applied, and attaches a
block with the other one, but cannot move the canonical tip to it.  That extrinsic is in front again. -/
theorem failed_author_undone_stranded :
    letI := Crypto.transparent
    ∃ n n' e answers, run easyParams {} strandedEvents = running n ∧
      (∀ event ∈ strandedEvents, ∃ limits, event.Pools limits) ∧
      n.author { maxExtrinsics := 2 } (fun _ => {}) = (⟨.error e, answers⟩, n') ∧
      KeepsPosition { n with pool := n'.pool } n' ∧
      n'.forkChoice.tree.size = n.forkChoice.tree.size + 1 ∧
      n.pool.extrinsics = [smallExtrinsic, strayExtrinsic 3, strayExtrinsic 4] ∧
      n'.pool.extrinsics = [smallExtrinsic, strayExtrinsic 4] := by
  let _ := Crypto.transparent
  have hnode : ((run easyParams {} strandedEvents).node?.map fun n =>
      let authored := n.author { maxExtrinsics := 2 } fun _ => {}
      (authored.1.result.toOption.isNone,
        decide (authored.2.forkChoice.tree.size = n.forkChoice.tree.size + 1),
        n.pool.extrinsics, authored.2.pool.extrinsics)) =
      some (true, true, [smallExtrinsic, strayExtrinsic 3, strayExtrinsic 4],
        [smallExtrinsic, strayExtrinsic 4]) := by
    decide +kernel
  obtain ⟨n, hn, hend⟩ := Option.map_eq_some_iff.1 hnode
  rw [node?_eq_some_iff] at hn
  simp only [Prod.mk.injEq, decide_eq_true_eq] at hend
  obtain ⟨hfailed, hsize, hbefore, hafter⟩ := hend
  have hgiven : ∀ event ∈ strandedEvents, ∃ limits, event.Pools limits :=
    List.forall_mem_cons.2 ⟨⟨{}, .empty⟩, List.forall_mem_cons.2 ⟨⟨{}, trivial⟩,
      List.forall_mem_cons.2 ⟨⟨{}, trivial⟩, List.forall_mem_cons.2 ⟨⟨{}, trivial⟩,
        List.forall_mem_singleton.2 ⟨{}, trivial⟩⟩⟩⟩⟩
  rcases hres : n.author { maxExtrinsics := 2 } fun _ => {} with ⟨⟨result, answers⟩, n'⟩
  rw [hres] at hfailed hsize hafter
  cases result with
  | ok r => cases hfailed
  | error e =>
    obtain ⟨hkeeps, -⟩ := failed_author_undone hgiven hn (by decide) (fun _ => ⟨rfl, rfl, rfl⟩) hres
    exact ⟨n, n', e, answers, hn, hgiven, hres, hkeeps, hsize, hbefore, hafter⟩

end Lifetime

end LedgerChain
