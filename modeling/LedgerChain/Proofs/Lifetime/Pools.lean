import LedgerChain.Proofs.Lifetime.StaleBlocks
import LedgerChain.Proofs.Node.InHand

/-!
# Pools over a lifetime

**The pool of a node has grown from an empty one**, if all pools that nodes were given have
(`Lifetime.grown`): whatever a node does, it changes its pool by the operations of pools.  So what an
author has in its hands is within the limits of the pool (`Lifetime.limited_making`).
-/

namespace LedgerChain

variable [Crypto]

/-- The pool that a node is given has grown within the given limits. -/
def LifeEvent.Pools (limits : MempoolConfig) : LifeEvent → Prop
  | .restart pool | .operate (.replacePool pool) => pool.Grown limits
  | _ => True

namespace Node

variable {params : Params} {n : Node} {limits : MempoolConfig}

theorem pool_of_start {s s' : Store} {pool : Mempool} {initial : State}
    (h : start params s pool initial = (.ok n, s')) : n.pool = pool := by
  obtain ⟨root, s₁, t, -, -, -, rfl⟩ := start_ok_cases h
  rfl

theorem grown_perform (hsound : n.Sound) (horder : n.Orderly) (hp : n.pool.Grown limits)
    {operation : Operation} (hgiven : (LifeEvent.operate operation).Pools limits) :
    (n.perform operation).pool.Grown limits := by
  -- what an operation reports is all that its pool hears
  have hreports : ∀ {news n'}, Reports news n n' → n'.pool.Grown limits := fun h => by
    rw [h.pool]
    exact hp.tell _
  cases operation with
  | submitExtrinsic x => exact hreports (reports_submitExtrinsic n x)
  | replacePool pool => exact hgiven
  | importBlock b => exact hreports ((horder.cascade_importBlock b).reports hsound)
  | importEncoded input =>
    show (n.importEncoded input).2.pool.Grown limits
    rw [importEncoded]
    cases Block.decode input with
    | error e => exact hp
    | ok b => exact hreports ((horder.cascade_importBlock b).reports hsound)
  | author config timelines =>
    obtain ⟨moves, hnode, -⟩ := n.exists_moves_author config timelines
    -- what the author holds counts towards the pool, so its moves are gone through one by one
    have hstart : Making.Steady Sound Written { node := n, left := config.maxAttempts } :=
      .start hsound hsound horder _
    have hgrown := (Making.limited_run admits_sound id hstart hp
      (Making.limited_nil limits config.maxExtrinsics) moves).1
    show (n.author config timelines).2.pool.Grown limits
    rw [← hnode]
    exact hgrown
  | shutdown => exact hreports (reports_shutdown n)

end Node

namespace Lifetime

open Node

variable {params : Params} {initial : State} {events : List LifeEvent} {n : Node}
  {limits : MempoolConfig}

/-- The pool of a node has grown from an empty one, within limits that a given pool had. -/
theorem exists_grown {L : MempoolConfig → Prop}
    (hgiven : ∀ event ∈ events, ∃ limits, L limits ∧ event.Pools limits)
    (hlife : run params initial events = running n) : ∃ limits, L limits ∧ n.pool.Grown limits := by
  have hlast : ∀ {events event},
      (∀ e ∈ events ++ [event], ∃ limits, L limits ∧ LifeEvent.Pools limits e) →
      (∀ e ∈ events, ∃ limits, L limits ∧ e.Pools limits) ∧
        ∃ limits, L limits ∧ event.Pools limits := fun h =>
    (List.forall_mem_append.1 h).imp_right fun hone => hone _ (List.mem_singleton_self _)
  refine events_induct (P := fun events n =>
    (∀ event ∈ events, ∃ limits, L limits ∧ event.Pools limits) →
      ∃ limits, L limits ∧ n.pool.Grown limits) (fun hstart hgiven => ?_)
    (fun operation hm ih hgiven => ?_) (fun faults _ ih hgiven => ih (hlast hgiven).1) hlife hgiven
  · rw [pool_of_start hstart]
    exact (hlast hgiven).2
  · obtain ⟨hbefore, hpools⟩ := hlast hgiven
    obtain ⟨limits, hL, hpool⟩ := ih hbefore
    have hsound := ((sound params initial _).node hm).1
    -- a pool that replaces the one at hand may have other limits
    cases operation with
    | replacePool pool => exact hpools
    | _ => exact ⟨limits, hL, grown_perform hsound (orderly hm) hpool trivial⟩

/-- **The pool of a node has grown from an empty one**, if those that nodes were given have. -/
theorem grown (hgiven : ∀ event ∈ events, event.Pools limits)
    (hlife : run params initial events = running n) : n.pool.Grown limits := by
  obtain ⟨_, rfl, hpool⟩ := exists_grown (L := fun given => given = limits)
    (fun event hevent => ⟨limits, rfl, hgiven event hevent⟩) hlife
  exact hpool

theorem grown_config (hgiven : ∀ event ∈ events, ∃ limits, event.Pools limits)
    (hlife : run params initial events = running n) : n.pool.Grown n.pool.config := by
  obtain ⟨limits, -, hpool⟩ := exists_grown (L := fun _ => True)
    (fun event hevent => (hgiven event hevent).imp fun _ h => ⟨trivial, h⟩) hlife
  rw [hpool.tidy.config_eq]
  exact hpool

theorem limited_making (hlife : run params initial events = running n)
    (hpool : n.pool.Grown limits) (config : AuthoringConfig) (moves : List MakingMove) :
    (n.making config moves).node.pool.Grown limits ∧
      Making.Limited limits config.maxExtrinsics (n.making config moves).stage.hand :=
  Making.limited_run (admits_placed (linking_follows _)) Node.Kept.sound
    (steady (linking_follows _) hlife config []).2 hpool (Making.limited_nil limits _) moves

end Lifetime

end LedgerChain
