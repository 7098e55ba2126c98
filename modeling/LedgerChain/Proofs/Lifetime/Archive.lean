import LedgerChain.Proofs.Lifetime.Basic
import LedgerChain.Proofs.Node.Restart

/-!
# The archive over a lifetime

All through a lifetime the store stays recoverable and the node, if there is one, keeps its archive
(`Lifetime.kept`), whatever fails, crashes or starts anew.
-/

namespace LedgerChain

variable [Crypto]

namespace Node

variable {R : ChainTip → ChainTip → Prop} {params : Params} {genesis : ChainTip} {n : Node}

theorem Kept.withFaults (h : n.Kept R params genesis) (faults : Faults) :
    Kept R params genesis { n with store := { n.store with faults } } := by
  refine ⟨h.sound.withFaults faults, h.params_eq, h.kept.recoverable.withFaults faults,
    fun hids => ?_⟩
  obtain ⟨u, hu⟩ := h.kept.live hids
  exact ⟨u, hu.of_eq rfl rfl⟩

end Node

namespace Lifetime

variable {R : ChainTip → ChainTip → Prop} {params : Params} {initial : State} {l : Lifetime}
  {n : Node}

/-- The store is recoverable, and the node keeps its archive. -/
structure Kept (R : ChainTip → ChainTip → Prop) (params : Params) (initial : State)
    (l : Lifetime) : Prop where
  recoverable : Recoverable R (Genesis.tip params initial) l.store
  node : ∀ {n}, l = running n → n.Kept R params (Genesis.tip params initial)

theorem Kept.stopped {s : Store} (h : Recoverable R (Genesis.tip params initial) s) :
    (stopped s).Kept R params initial where
  recoverable := h
  node heq := by cases heq

theorem Kept.running (hn : n.Kept R params (Genesis.tip params initial)) :
    (running n).Kept R params initial where
  recoverable := hn.kept.recoverable
  node heq := by
    cases heq
    exact hn

theorem Kept.next (hR : Linking params.consensus R) (hsound : l.Sound params)
    (h : l.Kept R params initial) (event : LifeEvent) :
    (l.next params initial event).Kept R params initial := by
  cases event with
  | operate operation =>
    cases l with
    | stopped s => exact h
    | running n =>
      have hn := h.node rfl
      exact .running (Node.Run.kept hR ((Node.admits_placed hR).perform hn operation) hn)
  | setFaults faults =>
    cases l with
    | stopped s => exact .stopped (h.recoverable.withFaults faults)
    | running n => exact .running ((h.node rfl).withFaults faults)
  | restart pool =>
    have hboot := Node.boot_start params l.store pool initial
    simp only [Lifetime.next]
    rcases hres : Node.start params l.store pool initial with ⟨_ | n, s⟩ <;> rw [hres] at hboot
    · exact .stopped (hboot.recoverable h.recoverable)
    · exact .running (Node.kept_of_start hR h.recoverable hsound.weighed hres)
  | crash lost => exact .stopped (h.recoverable.of_suffix (List.drop_suffix _ _) _)

/-- **The archive is kept all through a lifetime.** -/
theorem kept (hR : Linking params.consensus R) (initial : State) (events : List LifeEvent) :
    (run params initial events).Kept R params initial := by
  have hboth : (run params initial events).Sound params ∧
      (run params initial events).Kept R params initial :=
    run_induct (P := fun l => l.Sound params ∧ l.Kept R params initial)
      ⟨sound params initial [], .stopped .empty⟩
      (fun event h => ⟨h.1.next event, h.2.next hR h.1 event⟩) events
  exact hboth.2

end Lifetime

end LedgerChain
