import LedgerChain.Proofs.Node.Restart

/-!
# What a start recovers

What a node that starts on a recoverable store is like, said of the store alone (`Recovered`), and
compared to a node that was at work on the store (`resumes_of_start`): it has the same canonical
tip, also if the stored finalized block lags behind, and the same tree, if it does not.
-/

namespace LedgerChain

namespace Node

variable [Crypto] {R : ChainTip → ChainTip → Prop} {params : Params} {initial : State}
  {genesis : ChainTip} {s s' : Store} {pool : Mempool} {n n' : Node} {t u : ChainTree}
  {id : BlockId} {root : ChainTip}

/-- A node whose tree consists of the finalized block of a store, or of genesis, and of all stored
blocks above it, with the best tip as its canonical one. -/
structure Recovered (params : Params) (initial : State) (s : Store) (n : Node) : Prop where
  root_eq : n.forkChoice.tree.root = s.finalized.getD (Genesis.tip params initial).id
  mem_iff : ∀ id, n.hasSeen id = true ↔
    id = n.forkChoice.tree.root ∨ s.Above n.forkChoice.tree.root id
  stored : ∀ id e, n.forkChoice.tree.find? id = some e →
    n.store.blocks.find? id = some ⟨e.tip.block, e.tip.state⟩
  wellFormed : n.forkChoice.WellFormed
  root_weight : ∀ e, n.forkChoice.tree.find? n.forkChoice.tree.root = some e →
    e.cumulativeWeight = 0
  best : n.AtBest
  canonical : n.store.canonical = some n.forkChoice.best
  finalized : n.store.finalized = some n.forkChoice.tree.root

/-- A restored tree has the block it was restored from as its root, which weighs nothing. -/
theorem root_of_restoreTree {engine : Engine} (h : restoreTree engine s root = .ok t) :
    t.root = root.id ∧ ∃ r, t.find? root.id = some r ∧ r.tip = root ∧ r.cumulativeWeight = 0 := by
  refine attachLevels_induct
    (P := fun t => t.root = root.id ∧
      ∃ r, t.find? root.id = some r ∧ r.tip = root ∧ r.cumulativeWeight = 0)
    ?_ ⟨rfl, ⟨root, [], 0⟩, ?_, rfl, rfl⟩ h
  · rintro t t' height id - - ⟨hroot, r, hr, htip, hzero⟩ hatt
    obtain ⟨sb, -, rfl | ⟨weight, below, -, hfits, rfl⟩⟩ := attachStored_ok_cases hatt
    · exact ⟨hroot, r, hr, htip, hzero⟩
    · obtain ⟨r', hr', hsame, hcw, -⟩ :=
        ChainTree.find?_graft_of_find? hfits.fresh hfits.on_tree hr
      exact ⟨hroot, r', hr', hsame.trans htip, hcw.trans hzero⟩
  · rw [ChainTree.find?_ofRoot, if_pos rfl]

theorem weight_root_of_start (h : start params s pool initial = (.ok n, s')) {e : TreeEntry}
    (he : n.forkChoice.tree.find? n.forkChoice.tree.root = some e) : e.cumulativeWeight = 0 := by
  obtain ⟨root, s₁, t, -, ht, -, rfl⟩ := start_ok_cases h
  obtain ⟨hroot, r, hr, -, hzero⟩ := root_of_restoreTree ht
  have he' : (ForkChoice.ofTree params.run.finalityDepth t).tree.find?
      (ForkChoice.ofTree params.run.finalityDepth t).tree.root = some e := he
  rw [ForkChoice.tree_ofTree, hroot, hr] at he'
  cases he'
  exact hzero

theorem blocks_of_start (hs : Recoverable R (Genesis.tip params initial) s)
    (hids : Store.DistinctIds s.journal) (hne : s.journal ≠ [])
    (h : start params s pool initial = (.ok n, s')) : n.store.blocks = s.blocks := by
  obtain ⟨root, s₁, t, hroot, ht, hrepair, rfl⟩ := start_ok_cases h
  refine (repairPointer_ok hrepair).1.trans ?_
  rcases loadRoot_ok_cases hroot with ⟨id, -, -, rfl⟩ | ⟨-, rfl, rfl⟩
  · rfl
  · obtain ⟨u, hu⟩ := hs.self hne hids
    obtain ⟨e, -, -, hstored⟩ := hu.genesis_mem
    have hin : s.blocks.contains (Genesis.tip params initial).block.id = true :=
      Table.contains_iff.2 ⟨_, hstored⟩
    rw [Store.blocks_point, Store.blocks_point, Store.addBlock_of_contains hin]

theorem eq_genesis_of_start (hs : s.Journaled) (hnil : s.journal = [])
    (h : start params s pool initial = (.ok n, s')) {sb : StoredBlock}
    (hsb : n.store.blocks.find? id = some sb) : id = (Genesis.tip params initial).id := by
  obtain ⟨root, s₁, t, hroot, ht, hrepair, rfl⟩ := start_ok_cases h
  have hsb' : s₁.blocks.find? id = some sb := by
    rw [← (repairPointer_ok hrepair).1]
    exact hsb
  rcases loadRoot_ok_cases hroot with ⟨f, hfin, -⟩ | ⟨-, rfl, rfl⟩
  · rw [hs.finalized_eq, hnil] at hfin
    cases hfin
  · rw [Store.blocks_point, Store.blocks_point, Store.find?_addBlock] at hsb'
    split at hsb'
    · rename_i hnew
      exact hnew.2
    · rw [hs.blocks_eq, hnil] at hsb'
      cases hsb'

/-- **A start on a recoverable store recovers its finalized block and all blocks above it.** -/
theorem recovered_of_start (hR : Linking params.consensus R)
    (hs : Recoverable R (Genesis.tip params initial) s)
    (hw : s.Weighed (.ofRule params.consensus.sealRule)) (hids : Store.DistinctIds s.journal)
    (h : start params s pool initial = (.ok n, s')) : n.Recovered params initial s := by
  have hkept := kept_of_start hR hs hw h
  obtain ⟨-, hbest, hstore⟩ := sound_of_start hs.journaled hw h
  obtain ⟨hcan, hfin, hroot⟩ := pointers_of_start hs.journaled h
  have hids' : Store.DistinctIds n.store.journal := by
    have hboot := boot_start params s pool initial
    rw [h] at hboot
    rw [hstore]
    exact hboot.distinctIds hs hids
  obtain ⟨u, hu⟩ := hkept.kept.live hids'
  have hmem : ∀ id, n.hasSeen id = true ↔ n.forkChoice.tree.root ∈ u.lineage id := by
    intro id
    rw [hasSeen, ChainTree.contains_iff]
    exact ⟨fun ⟨e, he⟩ => hu.root_mem_lineage he, hu.above⟩
  refine ⟨hroot, fun id => ?_, fun id e he => hkept.find?_stored hids' he, hkept.sound.wellFormed,
    fun e he => weight_root_of_start h he, hbest, hcan, hfin ▸ hu.finalized⟩
  · rw [hmem]
    by_cases hnil : s.journal = []
    · -- the start has just stored genesis, and there was nothing before
      have hgen : n.forkChoice.tree.root = (Genesis.tip params initial).id := by
        rw [hroot, hs.journaled.finalized_eq, hnil]
        rfl
      constructor
      · intro ha
        obtain ⟨e, he⟩ := hu.above ha
        rw [hgen]
        exact Or.inl (eq_genesis_of_start hs.journaled hnil h (hkept.find?_stored hids' he))
      · rintro (rfl | ha)
        · obtain ⟨r, hr⟩ := hu.fork.tree.root_mem
          exact hu.root_mem_lineage hr
        · have hin := hs.journaled.journal_ne_nil ha.contains
          exact absurd hnil hin
    -- otherwise the start stores nothing new, so the archive is that of the old store
    · have harch : Archive R (Genesis.tip params initial) s u :=
        hu.archive.of_blocks_eq (blocks_of_start hs hids hnil h).symm
      rw [← harch.above_iff hR rfl]
      refine ⟨Or.inr, fun hor => hor.elim (fun heq => ?_) fun ha => ha⟩
      obtain ⟨r, hr⟩ := hu.fork.tree.root_mem
      obtain ⟨r', hr', -⟩ := hu.part _ r hr
      rw [heq]
      exact .self (Table.contains_iff.2 ⟨_, harch.find?_stored hr'⟩)

/-! ### Taking up the work of a node -/

/-- A node that took up the work of another one: the same canonical tip, with its state, and the
same tree with weights from its root on, unless the finalized pointer lagged behind. -/
structure Resumes (n n' : Node) : Prop where
  best_eq : n.AtBest → n'.forkChoice.best = n.forkChoice.best
  height_eq : n.AtBest → n'.forkChoice.bestHeight = n.forkChoice.bestHeight
  tip_eq : n.AtBest → ∃ p p', n.canonicalTip? = some p ∧ n'.canonicalTip? = some p' ∧
    p'.block = p.block ∧ p'.state = p.state
  mem_iff : n.store.finalized = some n.forkChoice.tree.root → ∀ id, n'.hasSeen id = n.hasSeen id
  weight_eq : n.store.finalized = some n.forkChoice.tree.root → ∀ {id r e e'},
    n.forkChoice.tree.find? n.forkChoice.tree.root = some r → n.forkChoice.tree.find? id = some e →
    n'.forkChoice.tree.find? id = some e' →
    r.cumulativeWeight ≤ e.cumulativeWeight ∧
      e'.cumulativeWeight = e.cumulativeWeight - r.cumulativeWeight

/-- **A node that starts on the store of another one takes up its work.** -/
theorem resumes_of_start (hR : Linking params.consensus R)
    (hn : n.Kept R params (Genesis.tip params initial))
    (hids : Store.DistinctIds n.store.journal)
    (h : start params { n.store with faults := {} } pool initial = (.ok n', s')) :
    n.Resumes n' := by
  obtain ⟨u, hu⟩ := hn.kept.live hids
  have hs := hn.kept.recoverable.withFaults {}
  have hw : Store.Weighed (.ofRule params.consensus.sealRule) { n.store with faults := {} } := by
    have hw := hn.sound.weighed
    rw [engine, hn.params_eq] at hw
    exact hw
  obtain ⟨-, hbest', -⟩ := sound_of_start hs.journaled hw h
  have hrec := recovered_of_start hR hs hw hids h
  have hroot : n'.forkChoice.tree.root = n.storedFinalized := by
    rw [hrec.root_eq, show Store.finalized _ = some n.storedFinalized from hu.finalized]
    rfl
  have hne : n.store.journal ≠ [] := by
    obtain ⟨e, -, -, hstored⟩ := hu.durable.genesis_mem
    exact hs.journaled.journal_ne_nil (Table.contains_iff.2 ⟨_, hstored⟩)
  -- both trees are live parts of one archive
  have hu' : Live R (Genesis.tip params initial) n'.store n'.forkChoice n'.storedFinalized u := by
    refine live_of_start hR hs.journaled hw h (hu.durable.of_eq ?_ ?_)
    · exact blocks_of_start (s := { n.store with faults := {} }) hs hids hne h
    · rw [hrec.finalized, hroot, hu.finalized]
  have hsame : n.AtBest → n'.forkChoice.best = n.forkChoice.best := fun hbest =>
    hu.best_eq hu' hbest hbest' (hroot ▸ hu.lag)
  have hroots : n.store.finalized = some n.forkChoice.tree.root →
      n'.forkChoice.tree.root = n.forkChoice.tree.root := by
    intro hfin
    rw [hu.finalized, Option.some.injEq] at hfin
    rw [hroot, hfin]
  refine ⟨hsame, fun hbest => ?_, fun hbest => ?_,
    fun hfin id => hu.contains_eq hu' (hroots hfin) id, fun hfin {id r e e'} hr he he' => ?_⟩
  · obtain ⟨b, b', -, -, hbh, hbh', hblock, -⟩ := hu.exists_best hu' (hsame hbest)
    rw [← hbh, ← hbh']
    exact congrArg Block.height hblock
  · obtain ⟨b, b', hb, hb', -, -, hblock, hstate⟩ := hu.exists_best hu' (hsame hbest)
    refine ⟨b.tip, b'.tip, ?_, ?_, hblock, hstate⟩
    · rw [canonicalTip?, ForkChoice.bestChainTip?, hb, Option.map_some]
    · rw [canonicalTip?, ForkChoice.bestChainTip?, hb', Option.map_some]
  · obtain ⟨r', hr'⟩ := hu'.fork.tree.root_mem
    obtain ⟨e'', he'', hweight⟩ := hu.find?_of_root_eq hu' (hroots hfin) hr hr' he
    rw [he'] at he''
    cases he''
    rw [hrec.root_weight r' hr'] at hweight
    omega

end Node

end LedgerChain
