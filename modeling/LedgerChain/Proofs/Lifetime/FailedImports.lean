import LedgerChain.Proofs.Lifetime.Orphans
import LedgerChain.Proofs.Node.FailedImport

/-!
# Failed imports over a lifetime

**An import that fails leaves the node where it was** (`Lifetime.failed_import_harmless`).  That goes
for imports of which some blocks were decided on before an orphan failed, too.  What they attached
counts later: the next import that is accepted makes the canonical tip the best of everything.
-/

namespace LedgerChain

namespace Lifetime

open Node

variable [Crypto] {params : Params} {initial : State} {events : List LifeEvent} {n n' : Node}
  {b : Block} {e : ChainError}

/-- **A failed import leaves the chain position intact**, if the store can be read.

* The node keeps its canonical tip with its height, the finalized block, the published status, both
  stored pointers and the pending extrinsics.
* The tree and the store lose no block, and those that they gain pass all checks on their parents.
* If blocks cannot be written, then the tree and the store are as they were.
* At any later moment of the session, whatever became of the faults, an import that is accepted
  leaves the canonical tip the best tip of the tree.  It tops every block that was attached since the
  failure, or by it. -/
theorem failed_import_harmless (hlife : run params initial events = running n)
    (hreads : n.store.faults.reads = false) (h : n.importBlock b = (.error e, n')) :
    n.KeepsPosition n' ∧ n.Gains n' ∧
    (n.store.faults.blockWrites = true → n'.forkChoice = n.forkChoice ∧ n'.store = n.store) ∧
    ∀ m c outcome m', n'.Session m → m.importBlock c = (.ok (.accepted outcome), m') →
      m'.AtBest ∧ ∀ k x, n'.Session k → k.Session m' → k.Carries x → m'.Tops x := by
  obtain ⟨hsound, -⟩ := (sound params initial events).node hlife
  have hn := orderly hlife
  have hfaults := hindered_of_importBlock_error hn hsound hreads h
  obtain ⟨hkeeps, hgains⟩ := keepsPosition_importBlock hn hsound hfaults b
  have hrun := admits_heavy.importBlock hsound.wellFormed b
  rw [h] at hkeeps hgains hrun
  refine ⟨hkeeps, hgains, fun hblocked => ?_, fun m c outcome m' hm haccepted => ?_⟩
  · have hsame := sameChain_importBlock hn hsound hblocked b
    rw [h] at hsame
    exact ⟨hsame.forkChoice, hsame.store⟩
  · have hsound' : n'.Sound := hrun.sound hsound
    have hmsound := hm.sound hsound'
    have hat := atBest_importBlock hmsound.wellFormed haccepted
    refine ⟨hat, fun k x hk hkm hx => ?_⟩
    have hksound := hk.sound hsound'
    rcases hkm.weighs hksound hx with hin | htops
    · exact hat.tops (hkm.sound hksound).wellFormed hin
    · exact htops

/-- Two blocks wait for the second block on genesis, and no pointer can be written. -/
def stuckEvents : List LifeEvent := siblingEvents ++ [.setFaults { pointerWrites := true }]

omit [Crypto] in
/-- A block is decided on while no pointer can be written, and releases an orphan that fails.  The
node stays where it was.  Later another block comes, and tops the one that failed. -/
theorem failed_import_harmless_sibling :
    letI := Crypto.transparent
    ∃ n n' m' outcome,
      run easyParams {} stuckEvents = running n ∧
      n.importBlock (sideBlock 1).block =
        (.error (.store (.failed (.writing .canonical))), n') ∧
      n'.hasSeen (sideBlock 1).id = true ∧ n'.forkChoice.best = (sideBlock 0).id ∧
      n'.status = n.status ∧
      Node.importBlock { n' with store := { n'.store with faults := {} } }
        (blockOn (sideBlock 1) 1).block = (.ok (.accepted outcome), m') ∧
      m'.AtBest ∧ m'.Tops ((blockOn (sideBlock 1) 0).id, 2) := by
  let _ := Crypto.transparent
  have hnode : ((run easyParams {} stuckEvents).node?.map fun n =>
      let n' := (n.importBlock (sideBlock 1).block).2
      let later := Node.importBlock { n' with store := { n'.store with faults := {} } }
        (blockOn (sideBlock 1) 1).block
      (n.store.faults.reads, (n.importBlock (sideBlock 1).block).1,
        n'.hasSeen (sideBlock 1).id && n.forkChoice.best = (sideBlock 0).id,
        (n'.forkChoice.tree.find? (blockOn (sideBlock 1) 0).id).map TreeEntry.cumulativeWeight,
        later.1.toOption.map ImportResult.isAccepted)) =
      some (false, .error (.store (.failed (.writing .canonical))), true, some 2, some true) := by
    decide +kernel
  obtain ⟨n, hn, hend⟩ := Option.map_eq_some_iff.1 hnode
  rw [node?_eq_some_iff] at hn
  simp only [Prod.mk.injEq, Bool.and_eq_true, decide_eq_true_eq] at hend
  obtain ⟨hreads, hfail, ⟨hseen, hbest⟩, hchild, hlater⟩ := hend
  obtain ⟨hsound, -⟩ := (sound _ _ _).node hn
  have hrun := admits_heavy.importBlock hsound.wellFormed (sideBlock 1).block
  rcases hres : n.importBlock (sideBlock 1).block with ⟨answer, n'⟩
  rw [hres] at hfail hseen hchild hlater hrun
  subst hfail
  obtain ⟨hkeeps, -, -, hafter⟩ := failed_import_harmless hn hreads hres
  -- the faults are gone, and the other orphan comes
  have hsound' : Node.Sound { n' with store := { n'.store with faults := {} } } :=
    (hrun.sound hsound).withFaults {}
  have hrepaired : n'.Session { n' with store := { n'.store with faults := {} } } :=
    .single (.setFaults n' {})
  have hrun' := admits_heavy.importBlock hsound'.wellFormed (blockOn (sideBlock 1) 1).block
  rcases hgood : Node.importBlock { n' with store := { n'.store with faults := {} } }
    (blockOn (sideBlock 1) 1).block with ⟨_ | result, m'⟩ <;> rw [hgood] at hlater hrun'
  · cases hlater
  cases result with
  | accepted outcome =>
    obtain ⟨hat, htops⟩ := hafter _ _ _ _ hrepaired hgood
    have hcarries : n'.Carries ((blockOn (sideBlock 1) 0).id, 2) := Option.map_eq_some_iff.1 hchild
    exact ⟨n, n', m', outcome, hn, hres, hseen, hkeeps.best.trans hbest, hkeeps.status, hgood, hat,
      htops n' _ .refl (hrepaired.trans (Session.of_run hrun')) hcarries⟩
  | ignored _ => cases hlater
  | pendingParent => cases hlater
  | rejected _ => cases hlater

end Lifetime

end LedgerChain
