import LedgerChain.Proofs.ForkChoice.Replay
import LedgerChain.Proofs.Mempool.Revision
import LedgerChain.Proofs.Node.News
import LedgerChain.Proofs.Tree.Switch

/-!
# The pool follows the canonical tip

When a block is submitted and the canonical tip moves, the pool is revised by what left the canonical
chain and what joined it: the two sides of the switch from the old tip to the new one
(`Node.PoolFollows`).  When the tip stays, be it since a pointer could not be written, the pool stays.

This asks little of a node (`Node.submitTip_follows`): that its fork choice has a canonical tip in a
well-formed tree, whatever blocks weigh, and that its pool has grown from an empty one.  All nodes
that blocks are handed to on the way of an import are like that, if the first one is
(`Node.Cascade.ready`).
-/

namespace LedgerChain

namespace ForkChoice

variable [Crypto] {f : ForkChoice}

/-- **Considering a block leaves the canonical tip where it is, or moves it along a way** of the tree
with the block on it, to another tip. -/
theorem Rooted.consider_cases (h : f.Rooted) (tip : ChainTip) :
    (∃ answer f', f.consider tip = (answer, f') ∧ f'.best = f.best ∧
      ∀ outcome, answer = .ok outcome → ∃ reason, outcome = .ignored reason) ∨
    ∃ below id e way, f.tree.Fits tip below ∧ id ≠ f.best ∧
      (f.tree.graft tip below).find? id = some e ∧ id ∈ (f.tree.graft tip below).tips ∧
      (f.tree.graft tip below).Leads way f.best id ∧
      f.consider tip = (.ok (moved (f.tree.graft tip below) tip.id way),
        ForkChoice.setBest { f with tree := f.tree.graft tip below } id) := by
  rcases consider_attached_or (ChainTree.not_overflows f.tree tip) with
    ⟨-, answer, hcons, hanswer⟩ | ⟨below, hfits, hcons⟩
  · refine Or.inl ⟨answer, f, hcons, rfl, fun outcome hok => ?_⟩
    rcases hanswer with ⟨-, rfl⟩ | ⟨-, rfl⟩ | ⟨e, rfl⟩ <;> cases hok
    · exact ⟨_, rfl⟩
    · exact ⟨_, rfl⟩
  · obtain ⟨id, e, -, htip, he, ⟨-, hfollow⟩ | ⟨hne, way, hway, hfollow⟩⟩ :=
      (h.graft hfits).follow_cases tip.id
    · refine Or.inl ⟨_, _, hcons.trans hfollow, rfl, fun outcome hok => ?_⟩
      cases hok
      exact ⟨_, rfl⟩
    · exact Or.inr ⟨below, id, e, way, hfits, hne, he, htip, hway, hcons.trans hfollow⟩

omit [Crypto] in
theorem best_advanceRoot {f' : ForkChoice} {report : Option ChainTree.FinalizeReport}
    (h : f.advanceRoot = .ok (report, f')) : f'.best = f.best := by
  unfold advanceRoot at h
  split at h
  · cases h
    rfl
  · split at h
    · cases h
    · split at h <;> cases h
      rfl

end ForkChoice

namespace Node

variable [Crypto] {n n' : Node} {tip : ChainTip} {limits : MempoolConfig}

open ForkChoice (Rooted moved)

/-! ### What a decision does to pool and tip -/

theorem update_of_moved {t : ChainTree} {e : TreeEntry} (he : t.find? tip.id = some e)
    (hblock : e.tip.block = tip.block) (way : Reorg) :
    PoolUpdate.ofOutcome tip.block (moved t tip.id way) =
      ⟨t.blocks way.down, t.blocks way.up⟩ := by
  unfold moved
  split
  · rename_i hone
    rw [hone.1, hone.2, ChainTree.blocks_cons he, hblock]
    rfl
  · rfl

omit [Crypto] in
theorem settle_keeps (n : Node) :
    n.settle.pool = n.pool ∧ n.settle.forkChoice.best = n.forkChoice.best := by
  unfold settle
  split
  · exact ⟨rfl, rfl⟩
  · rename_i hadvance
    have hbest := ForkChoice.best_advanceRoot hadvance
    dsimp only
    split
    · exact ⟨rfl, hbest⟩
    · rename_i hstored
      rcases storeFinalized_ok_cases hstored with ⟨-, rfl⟩ | ⟨store, -, rfl⟩
      · exact ⟨rfl, hbest⟩
      · exact ⟨rfl, hbest⟩

/-- **A decision leaves the pool alone.**  It leaves the canonical tip where it is and has no blocks
for the pool, or moves it along a way and names the blocks on it. -/
theorem decide_cases (h : n.forkChoice.Rooted) (tip : ChainTip) :
    (n.decide tip).2.pool = n.pool ∧
    (((n.decide tip).2.forkChoice.best = n.forkChoice.best ∧
        ∀ outcome update, (n.decide tip).1 = .ok (outcome, update) → update.apply = []) ∨
      ∃ below id e way, n.forkChoice.tree.Fits tip below ∧ id ≠ n.forkChoice.best ∧
        (n.forkChoice.tree.graft tip below).find? id = some e ∧
        id ∈ (n.forkChoice.tree.graft tip below).tips ∧
        (n.forkChoice.tree.graft tip below).Leads way n.forkChoice.best id ∧
        (n.decide tip).2.forkChoice.best = id ∧
        ∃ outcome, (n.decide tip).1 = .ok (outcome,
          ⟨(n.forkChoice.tree.graft tip below).blocks way.down,
            (n.forkChoice.tree.graft tip below).blocks way.up⟩)) := by
  rcases h.consider_cases tip with ⟨answer, f', hcons, hbest, hignored⟩ |
    ⟨below, id, e, way, hfits, hne, he, htip, hway, hcons⟩
  · rw [Node.decide, hcons]
    rcases answer with err | outcome
    · exact ⟨rfl, Or.inl ⟨hbest, fun _ _ hok => by cases hok⟩⟩
    · obtain ⟨reason, rfl⟩ := hignored outcome rfl
      refine ⟨rfl, Or.inl ⟨hbest, fun _ _ hok => ?_⟩⟩
      cases hok
      rfl
  · have hrooted := h.graft hfits
    rw [Node.decide, hcons]
    simp only [ForkChoice.changedCanonical_moved, Bool.not_true, Bool.false_eq_true, if_false,
      ForkChoice.best_setBest]
    cases hstore : n.store.setPointer .canonical id with
    | error err =>
      -- the tip goes back to where it was
      have hback := hrooted.rollback_eq id
      dsimp only at hback ⊢
      rw [hback]
      exact ⟨rfl, Or.inl ⟨rfl, fun _ _ hok => by cases hok⟩⟩
    | ok store =>
      dsimp only
      obtain ⟨hpool, hbest⟩ := settle_keeps (cancelAttempts
        { n with
          store
          forkChoice := ForkChoice.setBest
            { n.forkChoice with tree := n.forkChoice.tree.graft tip below } id })
      have hself := ChainTree.find?_graft_self n.forkChoice.tree tip below
      refine ⟨hpool, Or.inr ⟨below, id, e, way, hfits, hne, he, htip, hway, hbest,
        moved (n.forkChoice.tree.graft tip below) tip.id way, ?_⟩⟩
      rw [update_of_moved hself rfl]

/-! ### The pool after a submission -/

theorem submitTip_of_error {e : ChainError} (h : (n.offer tip).1 = .error e) :
    (n.submitTip tip).2 = (n.offer tip).2 := by
  rw [submitTip_eq]
  rcases hoffer : n.offer tip with ⟨answer, n₁⟩
  rw [hoffer] at h
  cases h
  rfl

theorem submitTip_of_ok {outcome : Outcome} {update : PoolUpdate}
    (h : (n.offer tip).1 = .ok (outcome, update)) :
    (n.submitTip tip).2 = (n.offer tip).2.updatePool update :=
  congrArg Prod.snd (submitTip_eq_ok h)

/-- The pool follows the canonical tip from one node to the next, a block having been submitted.  If
the tip moved, there is a switch from the old one to the new one, in the tree with the block on it:
what is on the side that was left came back, and what is on the side that was joined went out. -/
structure PoolFollows (limits : MempoolConfig) (tip : ChainTip) (n n' : Node) : Prop where
  stayed : n'.forkChoice.best = n.forkChoice.best → n'.pool = n.pool
  moved : n'.forkChoice.best ≠ n.forkChoice.best → ∃ t below way,
    n.forkChoice.tree.Fits tip below ∧ t = n.forkChoice.tree.graft tip below ∧
    t.Switch way n.forkChoice.best n'.forkChoice.best ∧
    (t.blocks way.down).map Block.id = way.down ∧ (t.blocks way.up).map Block.id = way.up ∧
    Revised limits n.pool.extrinsics ((t.blocks way.down).reverse.flatMap Block.extrinsics)
      ((t.blocks way.up).flatMap Block.extrinsics) n'.pool.extrinsics
  pending : n.pool.extrinsics.map Extrinsic.id = n.pool.pending ∧
    n'.pool.extrinsics.map Extrinsic.id = n'.pool.pending

/-- **The pool follows the canonical tip when a block is submitted**, whatever block it is. -/
theorem submitTip_follows (h : n.forkChoice.Rooted) (hpool : n.pool.Grown limits)
    (tip : ChainTip) : PoolFollows limits tip n (n.submitTip tip).2 := by
  have hkept : ∀ n' : Node, n'.pool = n.pool → n'.forkChoice.best = n.forkChoice.best →
      PoolFollows limits tip n n' := by
    intro n' hsame hbest
    refine ⟨fun _ => hsame, fun hne => absurd hbest hne, hpool.map_id_extrinsics, ?_⟩
    rw [hsame]
    exact hpool.map_id_extrinsics
  unfold submitTip
  cases n.store.put tip.block tip.state with
  | error e => exact hkept n rfl rfl
  | ok store =>
    dsimp only
    obtain ⟨hsame, hcases⟩ := decide_cases (n := { n with store }) h tip
    generalize decide { n with store } tip = decided at hsame hcases ⊢
    obtain ⟨answer, n₁⟩ := decided
    dsimp only at hsame hcases
    -- the tip stays, and so does the pool, or it moves along a way that is told
    rcases hcases with ⟨hbest, hnone⟩ |
      ⟨below, id, e, way, hfits, hne, he, htip, hway, hbest, outcome, rfl⟩
    · rcases answer with err | ⟨outcome, update⟩
      · exact hkept n₁ hsame hbest
      · have hnothing : n₁.updatePool update = n₁ := by
          rw [updatePool, hnone outcome update rfl]
          rfl
        dsimp only
        rw [hnothing]
        exact hkept n₁ hsame hbest
    · have hrooted := h.graft hfits
      obtain ⟨b, hb, -⟩ := hrooted.best
      have hdown := hrooted.tree.map_id_blocks fun x hx =>
        hrooted.tree.find?_of_mem_lineage_left (hway.mem_of_mem_down hx)
      have hup := hrooted.tree.map_id_blocks fun x hx =>
        hrooted.tree.find?_of_mem_lineage_left (hway.mem_of_mem_up hx)
      dsimp only
      generalize ht : n.forkChoice.tree.graft tip below = t at *
      have happly : (t.blocks way.up).isEmpty = false := by
        have hne' := hrooted.up_ne_nil hway he htip hne
        cases hblocks : t.blocks way.up with
        | nil =>
          rw [hblocks] at hup
          exact absurd hup.symm hne'
        | cons b bs => rfl
      rw [updatePool_eq, Mempool.revise, happly, hsame]
      refine ⟨fun hstay => absurd (hbest.symm.trans hstay) hne, fun _ => ⟨t, below, way, hfits,
        ht.symm, ?_, hdown, hup, hpool.revised _ _⟩, hpool.map_id_extrinsics,
        ((hpool.prune _).giveBack _).map_id_extrinsics⟩
      dsimp only
      rw [hbest]
      exact hway.switch hrooted.tree hb

theorem poolFollows_of_stayed (hpool : n.pool.Grown limits) (hsame : n'.pool = n.pool)
    (hbest : n'.forkChoice.best = n.forkChoice.best) (tip : ChainTip) :
    PoolFollows limits tip n n' where
  stayed _ := hsame
  moved hne := absurd hbest hne
  pending := by
    rw [hsame]
    exact ⟨hpool.map_id_extrinsics, hpool.map_id_extrinsics⟩

end Node

/-! ### Blocks that are handed in -/

namespace Handing

open Node

variable [Crypto] {limits : MempoolConfig}

/-- The node is sound, and its pool has grown from an empty one. -/
structure Ready (limits : MempoolConfig) (x : Handing) : Prop where
  sound : x.node.Sound
  pool : x.node.pool.Grown limits

/-- **The pool follows the canonical tip when a block is handed in**, be it submitted or not. -/
theorem Ready.poolFollows {x : Handing} (h : x.Ready limits) :
    ∃ tip : ChainTip, tip.block = x.block ∧ PoolFollows limits tip x.node x.after := by
  obtain ⟨n, b⟩ := x
  obtain ⟨hn, hpool⟩ := h
  have hsame : ∀ n' : Node, n'.pool = n.pool → n'.forkChoice = n.forkChoice →
      ∃ tip : ChainTip, tip.block = b ∧ PoolFollows limits tip n n' := fun n' hsame hchain =>
    ⟨⟨b, {}, 0⟩, rfl, poolFollows_of_stayed hpool hsame (congrArg ForkChoice.best hchain) _⟩
  have hhandled := handled_importOne n b
  simp only [Handing.after]
  generalize (n.importOne b).1 = answer at hhandled
  generalize (n.importOne b).2 = n' at hhandled
  cases hhandled with
  | passed _ _ => exact hsame n rfl rfl
  | unread _ => exact hsame n rfl rfl
  | @refused cause _ =>
    exact hsame _ (sameDesk_reject n b.id cause).pool (sameChain_reject n b.id cause).forkChoice
  | held _ _ _ _ =>
    exact hsame _ (sameDesk_holdOrphan n b).pool (sameChain_holdOrphan n b).forkChoice
  | @failed tip e hchecks hoffer =>
    refine ⟨tip, hchecks.block_eq, ?_⟩
    rw [← submitTip_of_error hoffer]
    exact submitTip_follows hn.wellFormed.rooted hpool tip
  | @decided tip outcome update hchecks hoffer =>
    refine ⟨tip, hchecks.block_eq, ?_⟩
    rw [← submitTip_of_ok hoffer]
    exact submitTip_follows hn.wellFormed.rooted hpool tip

end Handing

namespace Node

variable [Crypto] {n n' : Node} {limits : MempoolConfig} {rest : List Block} {stack : List BlockId}
  {log : List Handing} {ending : Except ChainError Unit}

/-- **All nodes on the way of a cascade are ready**, if the first one is. -/
theorem Cascade.ready (h : Cascade rest stack n log ending n') (hn : n.Sound)
    (hpool : n.pool.Grown limits) : ∀ x ∈ log, x.Ready limits := by
  have hall : n.pool.Grown limits →
      n'.pool.Grown limits ∧ ∀ x ∈ log, x.Ready limits := by
    refine h.relate (P := fun log n n' => n.pool.Grown limits →
        n'.pool.Grown limits ∧ ∀ x ∈ log, x.Ready limits) (F := fun _ => True)
      (fun n hn => ⟨hn, fun x hx => absurd hx List.not_mem_nil⟩) (fun hone hmore hn => ?_)
      (fun n parent hn => ⟨?_, fun x hx => absurd hx List.not_mem_nil⟩)
      (fun x hx _ hpool => ?_) hn trivial
    · obtain ⟨hm, hfirst⟩ := hone hn
      obtain ⟨hn', hlast⟩ := hmore hm
      exact ⟨hn', List.forall_mem_append.2 ⟨hfirst, hlast⟩⟩
    · rw [(reports_takeOrphans n parent).pool]
      exact hn.tell _
    · rw [(reports_importOne x hx).pool]
      exact ⟨hpool.tell _, List.forall_mem_singleton.2 ⟨hx, hpool⟩⟩
  exact (hall hpool).2

end Node

end LedgerChain
