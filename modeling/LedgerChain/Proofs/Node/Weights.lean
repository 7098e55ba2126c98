import LedgerChain.Proofs.Node.Pointers
import LedgerChain.Proofs.Node.Recovery
import LedgerChain.Proofs.Tree.Weights

/-!
# What the published weight counts

When the root of a tree moves up, the blocks below it go, and the cumulative weights of those above
it stay as they are.  So the weight that a node publishes is not that of the canonical blocks above
the finalized block (`Node.weightAbove`): the blocks that were finalized since the start of its session
are counted too (`Finalizes.weight_eq`).

What a session finalizes is the path from the root at its start to the root at its end, which no tree
holds as a whole; it is put together from the paths by which the single steps move the root
(`Session.finalizes`).
-/

namespace LedgerChain

variable [Crypto]

namespace Node

variable {n m n' : Node} {tip : ChainTip} {bs cs : List Block} {r : TreeEntry}
  {answer : Except ChainError (Outcome × PoolUpdate)}

/-- The weight of the canonical blocks above the finalized block, with both ends as the status names
them. -/
def weightAbove (n : Node) : Nat :=
  n.engine.weightOf (n.forkChoice.tree.pathBlocks n.status.finalized n.status.tip)

/-- The blocks of the tree, other than the root, have the weights that their seals say. -/
def Weighed (n : Node) : Prop := n.forkChoice.tree.WeighedBy n.engine

/-- The weights are counted from the root on. -/
def CountsFromRoot (n : Node) : Prop :=
  ∀ r, n.forkChoice.tree.find? n.forkChoice.tree.root = some r → r.cumulativeWeight = 0

/-- These blocks, which were written, lead from the root of the first node up to that of the second
one. -/
structure Finalizes (n : Node) (bs : List Block) (n' : Node) : Prop where
  rises : ∃ r r', n.forkChoice.tree.find? n.forkChoice.tree.root = some r ∧
    n'.forkChoice.tree.find? n'.forkChoice.tree.root = some r' ∧ Rises n.engine r bs r'
  written : bs ⊆ Store.writtenBlocks n'.store.journal

theorem finalizes_of_forkChoice_eq (hn : n.Sound) (h : n'.forkChoice = n.forkChoice) :
    n.Finalizes [] n' where
  rises := by
    obtain ⟨r, hr⟩ := hn.wellFormed.tree.root_mem
    exact ⟨r, r, hr, h ▸ hr, .still rfl rfl⟩
  written := List.nil_subset _

theorem Finalizes.trans (h : n.Finalizes bs m) (h' : m.Finalizes cs n')
    (hengine : m.engine = n.engine)
    (hwritten : Store.writtenBlocks m.store.journal ⊆ Store.writtenBlocks n'.store.journal) :
    n.Finalizes (cs ++ bs) n' where
  rises := by
    obtain ⟨r, q, hr, hq, hrises⟩ := h.rises
    obtain ⟨q', r', hq', hr', hrises'⟩ := h'.rises
    rw [hq] at hq'
    cases hq'
    exact ⟨r, r', hr, hr', hrises.trans (hengine ▸ hrises')⟩
  written := List.append_subset.2 ⟨h'.written, List.Subset.trans h.written hwritten⟩

/-! ### Decisions -/

theorem Decided.weighed (h : Decided n tip answer n') (hwf : n.forkChoice.WellFormed)
    (hheavy : n.Heavy tip) (hn : n.Weighed) : n'.Weighed := by
  have hgraft : ∀ {below}, n.forkChoice.tree.Fits tip below →
      (n.forkChoice.tree.graft tip below).WeighedBy n.engine :=
    fun hfits => hn.graft hfits.on_tree hheavy.weight_eq
  have hparams := h.rest_eq.2.2.1
  cases h with
  | unchanged _ _ => exact hn
  | stayed hfits _ => exact hgraft hfits
  | heldBack hfits _ _ _ => exact hgraft hfits
  | moved hfits _ _ _ _ hsettled =>
    obtain ⟨t, hcut, heq, -⟩ := hsettled.exists_tree
    rw [Weighed, engine, hparams, heq]
    exact (hgraft hfits).of_isUpperPart (hwf.graft hfits hheavy.weight_pos).tree hcut.isUpperPart

/-- **A decision moves the root up by blocks of the tree**, of which one may be the block decided
on. -/
theorem Decided.rises (h : Decided n tip answer n') (hwf : n.forkChoice.WellFormed)
    (hheavy : n.Heavy tip) (hn : n.Weighed)
    (hr : n.forkChoice.tree.find? n.forkChoice.tree.root = some r) :
    ∃ bs r', n'.forkChoice.tree.find? n'.forkChoice.tree.root = some r' ∧
      Rises n.engine r bs r' ∧ ∀ b ∈ bs, b = tip.block ∨
        ∃ id e, n.forkChoice.tree.find? id = some e ∧ e.tip.block = b := by
  have hgraft : ∀ {below}, n.forkChoice.tree.Fits tip below →
      ∃ r', (n.forkChoice.tree.graft tip below).find? n.forkChoice.tree.root = some r' ∧
        Rises n.engine r [] r' := by
    intro below hfits
    obtain ⟨r', hr', htip, hsum, -⟩ :=
      ChainTree.find?_graft_of_find? hfits.fresh hfits.on_tree hr
    exact ⟨r', hr', .still (congrArg ChainTip.block htip) hsum⟩
  cases h with
  | unchanged _ _ =>
    exact ⟨[], r, hr, .still rfl rfl, List.forall_mem_nil _⟩
  | stayed hfits _ =>
    obtain ⟨r', hr', hsame⟩ := hgraft hfits
    exact ⟨[], r', hr', hsame, List.forall_mem_nil _⟩
  | heldBack hfits _ _ _ =>
    obtain ⟨r', hr', hsame⟩ := hgraft hfits
    exact ⟨[], r', hr', hsame, List.forall_mem_nil _⟩
  | @moved below _ _ _ _ hfits _ _ _ _ hsettled =>
    obtain ⟨t, hcut, heq, -⟩ := hsettled.exists_tree
    obtain ⟨r₁, hr₁, hsame⟩ := hgraft hfits
    have hwf' := hwf.graft hfits hheavy.weight_pos
    -- the new root is on the lineage of the canonical tip, in the tree with the new block
    obtain ⟨g, hg⟩ := hwf'.tree.find?_of_mem_lineage_left hcut.root_mem
    have hnew : t.find? t.root = some g :=
      (hcut.isUpperPart.find?_eq (hwf'.tree.self_mem_lineage hg)).trans hg
    have hup := hwf'.tree.rises (hn.graft hfits.on_tree hheavy.weight_eq) hwf'.weighted
      (hwf'.tree.root_mem_lineage hg) hr₁ hg
    refine ⟨_, g, heq ▸ hnew, hsame.trans hup, fun b hb => ?_⟩
    rw [List.append_nil] at hb
    obtain ⟨id, e, he, rfl⟩ := ChainTree.exists_of_mem_pathBlocks hb
    obtain ⟨-, rfl⟩ | ⟨f, -, hf, htip, -⟩ := ChainTree.find?_of_find?_graft hfits.on_tree he
    · exact Or.inl rfl
    · exact Or.inr ⟨id, f, hf, congrArg ChainTip.block htip.symm⟩

/-! ### Steps and sessions -/

theorem Step.finalizes (h : Step Heavy n n') (hn : n.Sound) (hw : n.Weighed) :
    n'.Weighed ∧ ∃ bs, n.Finalizes bs n' := by
  have hengine := Run.engine_eq (.single h)
  have hwritten := Run.writtenBlocks_subset (.single h)
  cases h with
  | aside hsame =>
    refine ⟨?_, [], finalizes_of_forkChoice_eq hn hsame.forkChoice⟩
    rw [Weighed, hengine, hsame.forkChoice]
    exact hw
  | shutdown =>
    refine ⟨?_, [], finalizes_of_forkChoice_eq hn n.forkChoice_shutdown⟩
    rw [Weighed, hengine, n.forkChoice_shutdown]
    exact hw
  | @offer tip hheavy =>
    rcases written_offer_or n tip with ⟨e, heq⟩ | htip
    · rw [heq]
      exact ⟨hw, [], finalizes_of_forkChoice_eq hn rfl⟩
    rcases n.offer_cases tip with ⟨e, heq⟩ | ⟨store, -, heq⟩ <;> rw [heq] at htip hwritten ⊢
    · exact ⟨hw, [], finalizes_of_forkChoice_eq hn rfl⟩
    · have hwf : ({ n with store } : Node).forkChoice.WellFormed := hn.wellFormed
      have hheavy' : ({ n with store } : Node).Heavy tip := ⟨hheavy.weight_eq, hheavy.weight_pos⟩
      have hd := decided_decide hwf hheavy.weight_pos
      obtain ⟨r, hr⟩ := hwf.tree.root_mem
      obtain ⟨bs, r', hr', hrises, hmem⟩ := hd.rises hwf hheavy' hw hr
      refine ⟨hd.weighed hwf hheavy' hw, bs, ⟨r, r', hr, hr', hrises⟩, fun b hb => ?_⟩
      rcases hmem b hb with rfl | ⟨id, e, he, rfl⟩
      · exact htip
      · exact hwritten (Store.mem_writtenBlocks.2 ⟨_, hn.written he⟩)

theorem Move.finalizes (h : Move n n') (hn : n.Sound) (hw : n.Weighed) :
    (n'.Weighed ∧ ∃ bs, n.Finalizes bs n') ∧
      Store.writtenBlocks n.store.journal ⊆ Store.writtenBlocks n'.store.journal := by
  cases h with
  | step h => exact ⟨h.finalizes hn hw, Run.writtenBlocks_subset (.single h)⟩
  | setFaults faults =>
    exact ⟨⟨hw, [], finalizes_of_forkChoice_eq hn rfl⟩, List.Subset.refl _⟩

/-- **What a session finalizes is a path from the root at its start up to the root at its end.** -/
theorem Session.finalizes (h : n.Session n') (hn : n.Sound) (hw : n.Weighed) :
    n'.Weighed ∧ ∃ bs, n.Finalizes bs n' := by
  refine (h.induct (I := fun m => n.Session m ∧ m.Weighed ∧ ∃ bs, n.Finalizes bs m)
    (fun hm hI hmove => ?_) hn
    ⟨.refl, hw, [], finalizes_of_forkChoice_eq hn rfl⟩).2.2
  obtain ⟨hsession, hweighed, bs, hbefore⟩ := hI
  obtain ⟨⟨hweighed', cs, hafter⟩, hwritten⟩ := hmove.finalizes hm hweighed
  exact ⟨hsession.tail hmove, hweighed', cs ++ bs, hbefore.trans hafter hsession.engine_eq hwritten⟩

/-- **The published weight is that of the blocks above the finalized block, and of those that were
finalized since the start.** -/
theorem Finalizes.weight_eq (h : n.Finalizes bs n') (hn' : n'.Sound) (hw' : n'.Weighed)
    (hstatus : n'.Published) (hengine : n'.engine = n.engine) (hzero : n.CountsFromRoot) :
    n'.status.weight = n'.weightAbove + n'.engine.weightOf bs := by
  obtain ⟨r, r', hr, hr', hrises⟩ := h.rises
  obtain ⟨e, he, -⟩ := hn'.wellFormed.best
  have habove := (hn'.wellFormed.tree.rises hw' hn'.wellFormed.weighted
    (hn'.wellFormed.tree.root_mem_lineage he) hr' he).weight_eq
  have hbest : n'.status.weight = e.cumulativeWeight := by
    rw [hstatus]
    exact congrArg Prod.snd (ForkChoice.rank_eq he)
  have hroot := hrises.weight_eq
  rw [hzero r hr, Nat.zero_add, ← hengine] at hroot
  rw [hbest, habove, hroot, weightAbove, hstatus, Nat.add_comm]
  rfl

/-- **Nodes with the same canonical tip and the same finalized block have the same blocks in
between**, so these weigh the same. -/
theorem weightAbove_eq (hn : n.Sound) (hm : m.Sound) (hn' : n.Published) (hm' : m.Published)
    (hengine : m.engine = n.engine)
    (hids : Store.DistinctIds (n.store.journal ++ m.store.journal))
    (htip : m.status.tip = n.status.tip) (hfinalized : m.status.finalized = n.status.finalized) :
    m.weightAbove = n.weightAbove := by
  rw [hn', hm'] at htip hfinalized
  obtain ⟨e, he, -⟩ := hn.wellFormed.best
  obtain ⟨f, hf, -⟩ := hm.wellFormed.best
  have hbest : m.forkChoice.best = n.forkChoice.best := htip
  have hroot : m.forkChoice.tree.root = n.forkChoice.tree.root := hfinalized
  rw [hbest] at hf
  rw [weightAbove, weightAbove, hengine, hn', hm']
  refine Engine.weightOf_congr ?_
  show (m.forkChoice.tree.pathBlocks m.forkChoice.tree.root m.forkChoice.best).map _ = _
  rw [hbest, hroot]
  refine hn.wellFormed.tree.map_header_pathBlocks hm.wellFormed.tree hroot
    (fun {id e f} he hf => ?_) he hf
  exact hids _ _ _ _ (List.mem_append_right _ (hm.written hf))
    (List.mem_append_left _ (hn.written he))
    ((hm.wellFormed.tree.id_eq hf).trans (hn.wellFormed.tree.id_eq he).symm)

/-! ### Starts -/

theorem weighedBy_restoreTree {engine : Engine} {s : Store} {root : ChainTip} {t : ChainTree}
    (h : restoreTree engine s root = .ok t) : t.WeighedBy engine := by
  refine attachLevels_induct (P := fun t => t.WeighedBy engine) ?_
    (ChainTree.weighedBy_ofRoot root 0) h
  rintro t t' height id - - ht hatt
  obtain ⟨sb, -, rfl | ⟨weight, below, hweight, hfits, rfl⟩⟩ := attachStored_ok_cases hatt
  · exact ht
  · exact ht.graft hfits.on_tree hweight

theorem weighed_of_start {params : Params} {initial : State} {pool : Mempool} {s s' : Store}
    (h : start params s pool initial = (.ok n, s')) : n.Weighed := by
  obtain ⟨root, s₁, t, -, ht, -, rfl⟩ := start_ok_cases h
  show (ForkChoice.ofTree params.run.finalityDepth t).tree.WeighedBy _
  rw [ForkChoice.tree_ofTree]
  exact weighedBy_restoreTree ht

/-- **A node that starts publishes the weight of the blocks above the finalized one.** -/
theorem weight_of_start {params : Params} {initial : State} {pool : Mempool} {s s' : Store}
    (hj : s.Journaled) (hw : s.Weighed (.ofRule params.consensus.sealRule))
    (h : start params s pool initial = (.ok n, s')) : n.status.weight = n.weightAbove := by
  obtain ⟨hn, -, -⟩ := sound_of_start hj hw h
  have hzero : n.CountsFromRoot := fun r hr => weight_root_of_start h hr
  exact (finalizes_of_forkChoice_eq hn rfl).weight_eq hn (weighed_of_start h)
    (aligned_of_start hj hw h).published rfl hzero

/-- **A restart counts anew**: it leaves canonical tip and finalized block where they are, and what
was finalized before is not counted any more. -/
theorem weight_of_restart {R : ChainTip → ChainTip → Prop} {params : Params} {initial : State}
    {pool : Mempool} {s' : Store} (hR : Linking params.consensus R)
    (hn : n.Kept R params (Genesis.tip params initial))
    (hids : Store.DistinctIds n.store.journal) (hstatus : n.Published) (hbest : n.AtBest)
    (hfinalized : n.store.finalized = some n.forkChoice.tree.root)
    (h : start params { n.store with faults := {} } pool initial = (.ok n', s')) :
    n'.status.tip = n.status.tip ∧ n'.status.finalized = n.status.finalized ∧
      n'.status.weight = n.weightAbove := by
  have hs := hn.kept.recoverable.withFaults {}
  have hw : Store.Weighed (.ofRule params.consensus.sealRule) { n.store with faults := {} } := by
    have hw := hn.sound.weighed
    rwa [engine, hn.params_eq] at hw
  have hboot := boot_start params { n.store with faults := {} } pool initial
  obtain ⟨hn', -, hstore⟩ := sound_of_start hs.journaled hw h
  have hstatus' := (aligned_of_start hs.journaled hw h).published
  rw [h] at hboot
  -- a start adds nothing that would bring two headers under one identifier
  have hids' : Store.DistinctIds (n.store.journal ++ n'.store.journal) := by
    refine (hboot.distinctIds hs hids).of_subset ?_
    rw [hstore]
    exact List.append_subset.2 ⟨hboot.later.suffix.subset, List.Subset.refl _⟩
  have htip : n'.status.tip = n.status.tip := by
    rw [hstatus, hstatus']
    exact (resumes_of_start hR hn hids h).best_eq hbest
  have hroot : n'.status.finalized = n.status.finalized := by
    have hroot := (recovered_of_start hR hs hw hids h).root_eq
    rw [show Store.finalized _ = _ from hfinalized] at hroot
    rw [hstatus, hstatus']
    exact hroot
  refine ⟨htip, hroot, (weight_of_start hs.journaled hw h).trans ?_⟩
  refine weightAbove_eq hn.sound hn' hstatus hstatus' ?_ hids' htip hroot
  rw [engine, engine, hn.params_eq, params_of_start h]

end Node

end LedgerChain
