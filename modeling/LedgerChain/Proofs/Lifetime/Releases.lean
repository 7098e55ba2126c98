import LedgerChain.Proofs.Lifetime.Joining
import LedgerChain.Proofs.Lifetime.StaleBlocks
import LedgerChain.Proofs.Node.Released

/-!
# Releases over a lifetime

**An accepted block releases exactly the orphans that became reachable**
(`Lifetime.release_frees_reachable`), at every moment of a lifetime at which nothing fails and no
stored block is lost.  The block may be imported, or made by an author that is at work.
-/

namespace LedgerChain

namespace Lifetime

open Node

variable [Crypto] {params : Params} {initial : State} {events : List LifeEvent} {n : Node}
  {m : Making}

/-- **A release lets go exactly what became reachable.**  Let a node be at work making a block, or
about to, with other operations coming in between.  Let nothing fail, and no stored block be lost.

* If a block is imported and accepted, then the orphans are still those from before.  The release that
  follows ends and does not fail, and it frees the orphans that wait for the block, directly or
  through others that were accepted.
* An import is answered with acceptance only if the block alone is.
* If the author makes a block of a sealed one, then the same is true of the release that follows. -/
theorem release_frees_reachable (hlife : run params initial events = running n)
    {config : AuthoringConfig} {moves : List MakingMove} (hm : n.making config moves = m)
    (hharmless : m.node.store.faults.Harmless) (hlost : m.node.store.faults.lostBlocks = []) :
    (∀ b outcome n₁, m.node.importOne b = (.ok (.accepted outcome), n₁) →
      n₁.waiting = m.node.waiting ∧ ∃ n', m.node.importBlock b = (.ok (.accepted outcome), n') ∧
        n₁.Frees b.id (n₁.releaseHandings b.id) n') ∧
    (∀ b outcome, (m.node.importBlock b).1 = .ok (.accepted outcome) →
      (m.node.importOne b).1 = .ok (.accepted outcome)) ∧
    ∀ a tip block outcome n', m.stage = .sealed a tip →
      m.node.submitSealed a tip = (.made block outcome, n') →
      ∃ n₁, (m.node.unregister a.token).submitTip tip = (.ok outcome, n₁) ∧
        n₁.waiting = m.node.waiting ∧ n₁.Frees tip.id (n₁.releaseHandings tip.id) n' := by
  obtain ⟨-, hsteady⟩ := steady (linking_follows _) hlife config moves
  subst hm
  obtain ⟨-, hsound, horder, hholds⟩ := hsteady
  refine ⟨fun b outcome n₁ h => ?_, fun _ _ => importOne_of_importBlock,
    fun a tip block outcome n' hstage hmade => ?_⟩
  · exact ⟨waiting_of_accepted h rfl, frees_importBlock horder hsound hharmless hlost h rfl⟩
  · rw [hstage] at hholds
    obtain ⟨-, xs, ctx, hcomplete⟩ := hholds
    have hfollows := Candidate.follows_of_complete hcomplete
    generalize (n.making config moves).node = k at *
    rcases k.submitSealed_cases a tip with ⟨hend, -⟩ |
      ⟨-, -, ⟨e, -, hend, -⟩ | ⟨o, update, hoffer, hend, -⟩⟩ <;> rw [hend] at hmade
    · cases hmade
    · cases hmade
    · cases hmade
      obtain ⟨n₁, n', hsubmit, hwaiting, rfl, hrelease, hfrees⟩ := frees_submitTip
        (n := k.unregister a.token) (orderly_of_orphans_eq rfl horder)
        (Step.sound (.aside (sameChain_unregister k a.token)) hsound) hharmless hlost
        ⟨hfollows.weight_eq, hfollows.weight_pos⟩ hoffer
      refine ⟨_, hsubmit, hwaiting, ?_⟩
      rw [hrelease]
      exact hfrees

/-! ### A chain of orphans and a bystander -/

/-- A block whose parent is `lateBlock`. -/
def laterBlock : Block := (blockOn (blockOn (sideBlock 0) 0) 0).block

/-- A block whose parent is the second block on genesis. -/
def otherBlock : Block := (blockOn (sideBlock 1) 0).block

/-- Three blocks wait: the last of a branch, one of another branch, and the parent of the first. -/
def chainWaits : List LifeEvent :=
  startEvent :: [laterBlock, otherBlock, lateBlock].map fun b => .operate (.importBlock b)

omit [Crypto] in
/-- The block at the bottom comes in.  The two above it are released, one after the other, and the
block of the other branch still waits. -/
theorem release_frees_reachable_chain :
    letI := Crypto.transparent
    ∃ n n₁ n' outcome, run easyParams {} chainWaits = running n ∧
      n.making {} [] = { node := n, left := 3 } ∧
      n.store.faults.Harmless ∧ n.store.faults.lostBlocks = [] ∧
      n.importOne (sideBlock 0).block = (.ok (.accepted outcome), n₁) ∧
      n.importBlock (sideBlock 0).block = (.ok (.accepted outcome), n') ∧
      n₁.Frees (sideBlock 0).id (n₁.releaseHandings (sideBlock 0).id) n' ∧
      n.waiting = [laterBlock, otherBlock, lateBlock] ∧
      (n₁.releaseHandings (sideBlock 0).id).map Handing.block = [lateBlock, laterBlock] ∧
      n'.waiting = [otherBlock] := by
  let _ := Crypto.transparent
  have hnode : ((run easyParams {} chainWaits).node?.map fun n =>
      let n₁ := (n.importOne (sideBlock 0).block).2
      ((n.importOne (sideBlock 0).block).1.toOption, decide (n.store.faults = {}), n.waiting,
        (n₁.releaseHandings (sideBlock 0).id).map Handing.block,
        (n.importBlock (sideBlock 0).block).2.waiting)) =
      some (some (.accepted .extended), true, [laterBlock, otherBlock, lateBlock],
        [lateBlock, laterBlock], [otherBlock]) := by
    decide +kernel
  obtain ⟨n, hn, hend⟩ := Option.map_eq_some_iff.1 hnode
  rw [node?_eq_some_iff] at hn
  simp only [Prod.mk.injEq, decide_eq_true_eq, toOption_eq_some_iff] at hend
  obtain ⟨haccepted, hfaults, hbefore, hreleased, hafter⟩ := hend
  have hharmless : n.store.faults.Harmless := by
    rw [hfaults]
    exact ⟨rfl, rfl, rfl⟩
  have hlost : n.store.faults.lostBlocks = [] := by rw [hfaults]
  have hm : n.making {} [] = { node := n, left := 3 } := rfl
  obtain ⟨himport, -⟩ := release_frees_reachable hn hm hharmless hlost
  obtain ⟨-, n', himported, hfrees⟩ := himport _ _ _ (Prod.ext haccepted rfl)
  refine ⟨n, _, n', _, hn, hm, hharmless, hlost, Prod.ext haccepted rfl, himported, hfrees,
    hbefore, hreleased, ?_⟩
  rwa [himported] at hafter

end Lifetime

end LedgerChain
