import LedgerChain.Proofs.Lifetime.Authoring
import LedgerChain.Proofs.Lifetime.Pools
import LedgerChain.Proofs.Node.PoolFollows

/-!
# Pool updates over a lifetime

**The pool of a node follows its canonical tip** (`Lifetime.pool_follows_tip`), at every moment of a
lifetime at which a block is submitted: from outside, on the way of an import, or by an author, and be
it that pools with other limits were at hand before.
-/

namespace LedgerChain

open Node

variable [Crypto]

namespace Node

variable {n n' : Node} {limits : MempoolConfig} {a : Attempt} {tip : ChainTip}

/-- The pool follows the canonical tip when a block of one's own is made, and then when its orphans
are handed in. -/
theorem poolFollows_of_made (hn : n.Orderly) (hsound : n.Sound) (hpool : n.pool.Grown limits)
    (hheavy : (n.unregister a.token).Heavy tip) {block : Block} {outcome : Outcome}
    (hmade : n.submitSealed a tip = (.made block outcome, n')) :
    ∃ n₁, PoolFollows limits tip n n₁ ∧ n' = (n₁.releaseOrphans tip.id).2 ∧
      ∀ x ∈ n₁.releaseHandings tip.id, x.Ready limits := by
  have hsound' : (n.unregister a.token).Sound :=
    Step.sound (.aside (sameChain_unregister n a.token)) hsound
  rcases n.submitSealed_cases a tip with ⟨hend, -⟩ |
    ⟨-, -, ⟨e, -, hend, -⟩ | ⟨outcome, update, hoffer, hend, -⟩⟩ <;> rw [hend] at hmade
  · cases hmade
  · cases hmade
  · cases hmade
    have hfollows := submitTip_follows (n := n.unregister a.token) hsound'.wellFormed.rooted hpool tip
    rw [submitTip_of_ok hoffer] at hfollows
    have hreports := reports_offer hsound'.wellFormed hheavy hoffer
    have horphans := (sameMemory_made (n.unregister a.token) tip update).orphans
    have hcascade := (orderly_of_orphans_eq horphans hn).cascade_releaseOrphans tip.id
    refine ⟨_, ⟨hfollows.stayed, hfollows.moved, hfollows.pending⟩, rfl,
      hcascade.ready ((run_made hheavy update).sound hsound') ?_⟩
    rw [hreports.pool]
    exact hpool.tell _

end Node

namespace Lifetime

variable {params : Params} {initial : State} {events : List LifeEvent} {n : Node} {m : Making}

/-- **The pool of a node follows its canonical tip.**  Let a node be at work making a block, or about
to, with other operations coming in between, and let all pools that nodes were given have grown from
empty ones.

* Whatever block is submitted then, the pool follows the canonical tip.
* The same is true of each block that is handed in on the way of an import.
* It is true of a block that the author makes, and then of the orphans that this releases. -/
theorem pool_follows_tip (hgiven : ∀ event ∈ events, ∃ limits, event.Pools limits)
    (hlife : run params initial events = running n) {config : AuthoringConfig}
    {moves : List MakingMove} (hm : n.making config moves = m) :
    (∀ tip, PoolFollows n.pool.config tip m.node (m.node.submitTip tip).2) ∧
    (∀ b, ∀ x ∈ m.node.importHandings b, ∃ tip : ChainTip, tip.block = x.block ∧
      PoolFollows n.pool.config tip x.node x.after) ∧
    ∀ a tip block outcome n', m.stage = .sealed a tip →
      m.node.submitSealed a tip = (.made block outcome, n') →
      ∃ n₁, PoolFollows n.pool.config tip m.node n₁ ∧ n' = (n₁.releaseOrphans tip.id).2 ∧
        ∀ x ∈ n₁.releaseHandings tip.id, ∃ tip' : ChainTip, tip'.block = x.block ∧
          PoolFollows n.pool.config tip' x.node x.after := by
  obtain ⟨-, hsteady⟩ := steady (linking_follows _) hlife config moves
  obtain ⟨hpool, -⟩ := limited_making hlife (grown_config hgiven hlife) config moves
  subst hm
  obtain ⟨-, hsound, horder, hholds⟩ := hsteady
  refine ⟨submitTip_follows hsound.wellFormed.rooted hpool, fun b x hx => ?_,
    fun a tip block outcome n' hstage hmade => ?_⟩
  · exact ((horder.cascade_importBlock b).ready hsound hpool x hx).poolFollows
  · rw [hstage] at hholds
    obtain ⟨-, xs, ctx, hcomplete⟩ := hholds
    have hfollows := Candidate.follows_of_complete hcomplete
    obtain ⟨n₁, hfirst, hrest, hready⟩ :=
      poolFollows_of_made horder hsound hpool ⟨hfollows.weight_eq, hfollows.weight_pos⟩ hmade
    exact ⟨n₁, hfirst, hrest, fun x hx => (hready x hx).poolFollows⟩

/-! ### A block gives way to another one -/

/-- A block on genesis with some extrinsics. -/
def blockWith (xs : List Extrinsic) : ChainTip :=
  ((Candidate.prepare (Genesis.tip easyParams {}) xs).1.complete
    (.ofRule easyParams.consensus.sealRule) (Genesis.tip easyParams {}) {}).toOption.getD
      (Genesis.tip easyParams {})

/-- An extrinsic that sets the same value. -/
def rivalExtrinsic : Extrinsic := .ofCall (.set [1] [3]) 0

/-- An extrinsic that sets the same value once more. -/
def lateExtrinsic : Extrinsic := .ofCall (.set [1] [4]) 0

/-- Two extrinsics are pending, and a third one is in the canonical block. -/
def rivalEvents : List LifeEvent :=
  submittedEvents ++ .operate (.submitExtrinsic lateExtrinsic) ::
    importEvents [blockWith [rivalExtrinsic]]

omit [Crypto] in
/-- The canonical block gives way to one with a pending extrinsic.  Its own extrinsic comes back,
ahead of the other one that is pending. -/
theorem pool_follows_tip_rival :
    letI := Crypto.transparent
    ∃ n n', run easyParams {} rivalEvents = running n ∧
      (∀ event ∈ rivalEvents, ∃ limits, event.Pools limits) ∧
      n.making {} [] = { node := n, left := 3 } ∧
      n' = (n.submitTip (blockWith [smallExtrinsic])).2 ∧
      n'.forkChoice.best ≠ n.forkChoice.best ∧
      PoolFollows n.pool.config (blockWith [smallExtrinsic]) n n' ∧
      n.pool.extrinsics = [smallExtrinsic, lateExtrinsic] ∧
      n'.pool.extrinsics = [rivalExtrinsic, lateExtrinsic] := by
  let _ := Crypto.transparent
  have hnode : ((run easyParams {} rivalEvents).node?.map fun n =>
      let n' := (n.submitTip (blockWith [smallExtrinsic])).2
      (decide (n'.forkChoice.best ≠ n.forkChoice.best), n.pool.extrinsics, n'.pool.extrinsics)) =
      some (true, [smallExtrinsic, lateExtrinsic], [rivalExtrinsic, lateExtrinsic]) := by
    decide +kernel
  obtain ⟨n, hn, hend⟩ := Option.map_eq_some_iff.1 hnode
  rw [node?_eq_some_iff] at hn
  simp only [Prod.mk.injEq, decide_eq_true_eq] at hend
  obtain ⟨hmoved, hbefore, hafter⟩ := hend
  have hgiven : ∀ event ∈ rivalEvents, ∃ limits, event.Pools limits :=
    List.forall_mem_cons.2 ⟨⟨{}, .empty⟩, List.forall_mem_cons.2 ⟨⟨{}, trivial⟩,
      List.forall_mem_cons.2 ⟨⟨{}, trivial⟩, List.forall_mem_singleton.2 ⟨{}, trivial⟩⟩⟩⟩
  have hm : n.making {} [] = { node := n, left := 3 } := rfl
  obtain ⟨hfollows, -⟩ := pool_follows_tip hgiven hn hm
  exact ⟨n, _, hn, hgiven, hm, rfl, hmoved, hfollows _, hbefore, hafter⟩

end Lifetime

end LedgerChain
