import LedgerChain.Proofs.Node.Restore

/-!
# Starting on a recoverable store

Whatever writes of a start come through, they leave a recoverable store recoverable
(`Boot.recoverable`).  If the start succeeds the new node keeps the archive of the store
(`kept_of_start`), and without faults it succeeds (`exists_start`).
-/

namespace LedgerChain

namespace Node

variable [Crypto] {R : ChainTip → ChainTip → Prop} {params : Params} {initial : State}
  {genesis : ChainTip} {s s' s₁ : Store} {pool : Mempool} {n : Node} {t u : ChainTree}
  {id : BlockId}   {root : ChainTip}

/-! ### The writes of a start -/

theorem durable_addGenesis (hj : s.Journaled) (hnil : s.journal = []) :
    Durable R genesis (s.addBlock genesis.block genesis.state) (.ofRoot genesis 0) := by
  have hblocks : s.blocks = .empty := by
    rw [hj.blocks_eq, hnil]
    rfl
  have hfin : s.finalized = none := by
    rw [hj.finalized_eq, hnil]
    rfl
  refine ⟨.ofRoot fun id => ?_, fun {f} hf => ?_, fun {f _ _} hf => ?_⟩
  · rw [Store.find?_addBlock, hblocks]
    by_cases hid : id = genesis.id
    · rw [if_pos ⟨rfl, hid⟩, if_pos hid]
    · rw [if_neg (fun hc : _ ∧ id = genesis.block.id => hid hc.2), if_neg hid]
      rfl
  all_goals
    rw [Store.finalized_addBlock, hfin] at hf
    cases hf

theorem BootStep.recoverable (h : BootStep genesis s s') (hs : Recoverable R genesis s) :
    Recoverable R genesis s' := by
  cases h with
  | genesis =>
    refine hs.record (.block genesis.block genesis.state) fun hids => ?_
    by_cases hnil : s.journal = []
    · exact ⟨_, durable_addGenesis hs.journaled hnil⟩
    · obtain ⟨u, hu⟩ := hs.self hnil (hids.of_suffix (List.suffix_cons _ _))
      obtain ⟨e, -, -, hstored⟩ := hu.genesis_mem
      have hin : s.blocks.contains genesis.block.id = true := Table.contains_iff.2 ⟨_, hstored⟩
      refine ⟨u, hu.of_eq ?_ (Store.finalized_addBlock s _ _)⟩
      rw [Store.record, Store.addBlock_of_contains hin]
  | finalized hin =>
    refine hs.record (.pointer .finalized genesis.id) fun hids => ?_
    obtain ⟨u, hu⟩ := hs.self (hs.journaled.journal_ne_nil hin)
      (hids.of_suffix (List.suffix_cons _ _))
    have hroot := hu.archive.root_eq
    refine ⟨u, hu.archive.of_blocks_eq rfl, fun {f} hf => ?_, fun {f id e} hf he hnot => ?_⟩
    all_goals cases hf
    · obtain ⟨e, he, -⟩ := hu.genesis_mem
      exact ⟨e, he⟩
    · -- all blocks are above genesis
      rw [← hroot] at hnot
      exact absurd (hu.archive.wellFormed.root_mem_lineage he) hnot
  | @canonical id hin =>
    refine hs.record (.pointer .canonical id) fun hids => ?_
    obtain ⟨u, hu⟩ := hs.self (hs.journaled.journal_ne_nil hin)
      (hids.of_suffix (List.suffix_cons _ _))
    exact ⟨u, hu.of_eq rfl rfl⟩

/-- **A start leaves a recoverable store recoverable**, also one that fails. -/
theorem Boot.recoverable (h : Boot genesis s s') (hs : Recoverable R genesis s) :
    Recoverable R genesis s' := by
  induction h with
  | refl => exact hs
  | tail _ hstep ih => exact hstep.recoverable ih

theorem Boot.distinctIds (h : Boot genesis s s') (hs : Recoverable R genesis s)
    (hids : Store.DistinctIds s.journal) : Store.DistinctIds s'.journal := by
  induction h with
  | refl => exact hids
  | @tail s₁ s₂ hboot hstep ih =>
    have hs₁ : Recoverable R genesis s₁ := Boot.recoverable hboot hs
    cases hstep with
    | genesis =>
      rw [Store.journal_addBlock]
      by_cases hnil : s₁.journal = []
      · rw [hnil]
        intro b state b' state' hb hb' _
        cases List.mem_singleton.1 hb
        cases List.mem_singleton.1 hb'
        rfl
      · obtain ⟨u, hu⟩ := hs₁.self hnil ih
        obtain ⟨e, -, -, hstored⟩ := hu.genesis_mem
        exact ih.again (hs₁.journaled.mem_journal hstored)
    | finalized _ => exact ih.pointer _ _
    | canonical _ => exact ih.pointer _ _

/-! ### Where a start begins -/

omit [Crypto] in
theorem repairPointer_ok (h : repairPointer s id = .ok s') :
    s'.blocks = s.blocks ∧ s'.finalized = s.finalized ∧ s'.canonical = some id := by
  rw [repairPointer] at h
  split at h
  · cases h
  · rename_i stored hget
    split at h
    · rename_i heq
      cases h
      refine ⟨rfl, rfl, ?_⟩
      exact (Store.read_eq_ok_iff.1 hget).2.trans heq
    · rw [(Store.setPointer_eq_ok_iff.1 h).2.2]
      exact ⟨rfl, rfl, rfl⟩

theorem finalized_loadRoot (hs : s.Journaled)
    (h : loadRoot params initial s = (.ok root, s₁)) :
    s₁.finalized = some root.id ∧
      root.id = s.finalized.getD (Genesis.tip params initial).id ∧
      s₁.blocks.contains root.id = true := by
  rcases loadRoot_ok_cases h with ⟨id, hfin, hload, rfl⟩ | ⟨hfin, rfl, rfl⟩
  · obtain ⟨sb, hsb, rfl⟩ := load_ok_cases hload
    have hid : sb.block.id = id := hs.indexed.id_eq hsb
    rw [hfin, Option.getD_some, ChainTip.id, hid]
    exact ⟨rfl, rfl, Table.contains_iff.2 ⟨sb, hsb⟩⟩
  · rw [hfin]
    refine ⟨rfl, rfl, ?_⟩
    obtain ⟨sb, hsb⟩ := Store.find?_addBlock_self s (Genesis.tip params initial).block
      (Genesis.tip params initial).state
    exact Table.contains_iff.2 ⟨sb, hsb⟩

theorem find?_loadRoot (hs : s.Journaled)
    (h : loadRoot params initial s = (.ok root, s₁))
    (hu : Durable R (Genesis.tip params initial) s₁ u) :
    ∃ e, u.find? root.id = some e ∧ e.tip.block = root.block ∧ e.tip.state = root.state := by
  rcases loadRoot_ok_cases h with ⟨id, -, hload, rfl⟩ | ⟨-, rfl, -⟩
  · obtain ⟨sb, hsb, rfl⟩ := load_ok_cases hload
    obtain ⟨e, he, hblock, hstate⟩ := hu.archive.of_find?_stored hsb
    have hid : sb.block.id = id := hs.indexed.id_eq hsb
    rw [← hid] at he
    exact ⟨e, he, hblock, hstate⟩
  · obtain ⟨e, he, htip, -⟩ := hu.genesis_mem
    exact ⟨e, he, by rw [htip], by rw [htip]⟩

theorem root_restoreTree {engine : Engine} (h : restoreTree engine s root = .ok t) :
    t.root = root.id := by
  refine attachLevels_induct (P := fun t => t.root = root.id) ?_ rfl h
  intro t t' height id _ _ ht hatt
  obtain ⟨sb, -, rfl | ⟨weight, below, -, -, rfl⟩⟩ := attachStored_ok_cases hatt
  · exact ht
  · exact ht

/-- The canonical pointer of a node that started points to its canonical tip.  The root is the block
that the finalized pointer pointed to, and genesis if there was no pointer. -/
theorem pointers_of_start (hs : s.Journaled) (h : start params s pool initial = (.ok n, s')) :
    n.store.canonical = some n.forkChoice.best ∧ n.storedFinalized = n.forkChoice.tree.root ∧
      n.forkChoice.tree.root = s.finalized.getD (Genesis.tip params initial).id := by
  obtain ⟨root, s₁, t, hroot, ht, hrepair, rfl⟩ := start_ok_cases h
  refine ⟨(repairPointer_ok hrepair).2.2, rfl, ?_⟩
  show (ForkChoice.ofTree params.run.finalityDepth t).tree.root = _
  rw [ForkChoice.tree_ofTree, root_restoreTree ht]
  exact (finalized_loadRoot hs hroot).2.1

/-! ### The node that starts -/

theorem Restored.live {f : ForkChoice} {r : BlockId} (ht : Restored u r (fun _ => True) f.tree)
    (hu : Durable R genesis s u) (hfin : s.finalized = some r) (hf : f.WellFormed)
    (hbest : f.tree.IsBest f.best) : Live R genesis s f r u := by
  have hroot := ht.root_eq
  refine ⟨hu.archive, hf, ht.part, fun {id} ha => (ht.mem_iff id).2 ⟨hroot ▸ ha, trivial⟩,
    fun {id e g} he hnot hg => ?_, hfin, ?_⟩
  · -- some block above the root beats it, and the best tip is not worse
    rw [hroot] at hnot
    obtain ⟨d, gd, hgd, hd, hbeats⟩ := hu.beaten hfin he hnot
    by_cases heq : d = f.best
    · subst heq
      rw [hg] at hgd
      cases hgd
      exact hbeats
    · obtain ⟨b, hb, -⟩ := hf.best
      obtain ⟨c, hc⟩ := (ht.mem_iff d).2 ⟨hd, trivial⟩
      have hbest' := hbest.beats hb hc heq
      rw [ht.part.beats_iff hf.tree hu.archive.wellFormed hb hc hg hgd] at hbest'
      exact ForkChoice.beats_trans hbest' hbeats
  · obtain ⟨e, he⟩ := hu.finalized hfin
    rw [hroot]
    exact hu.archive.wellFormed.self_mem_lineage he

/-- The tree of a node that starts is the live part of any archive of its store. -/
theorem live_of_start (hR : Linking params.consensus R) (hs : s.Journaled)
    (hw : s.Weighed (.ofRule params.consensus.sealRule))
    (h : start params s pool initial = (.ok n, s'))
    (hu : Durable R (Genesis.tip params initial) n.store u) :
    Live R (Genesis.tip params initial) n.store n.forkChoice n.storedFinalized u := by
  obtain ⟨hsound, hbest, -⟩ := sound_of_start hs hw h
  obtain ⟨root, s₁, t, hroot, ht, hrepair, rfl⟩ := start_ok_cases h
  obtain ⟨hblocks, hfin, -⟩ := repairPointer_ok hrepair
  have hlater := Boot.later (boot_loadRoot params initial s)
  rw [hroot] at hlater
  have hj₁ : s₁.Journaled := hlater.journaled hs
  have hu₁ : Durable R (Genesis.tip params initial) s₁ u := hu.of_eq hblocks.symm hfin.symm
  obtain ⟨hroot₁, -, -⟩ := finalized_loadRoot hs hroot
  obtain ⟨e, he, hblock, hstate⟩ := find?_loadRoot hs hroot hu₁
  -- the tree is the one that a store without faults leads to
  obtain ⟨t', ht', hres⟩ := exists_restoreTree hR (s := { s₁ with faults := {} })
    (hu₁.archive.of_blocks_eq rfl) (hj₁.withFaults {}).indexed rfl he hblock hstate
  rw [restoreTree_withoutFaults ht] at ht'
  cases ht'
  have htree := ForkChoice.tree_ofTree params.run.finalityDepth t
  have hlive : Live R (Genesis.tip params initial) s₁
      (ForkChoice.ofTree params.run.finalityDepth t) root.id u := by
    refine Restored.live ?_ hu₁ hroot₁ hsound.wellFormed hbest
    rw [htree]
    exact hres
  show Live R _ s' (ForkChoice.ofTree params.run.finalityDepth t) (ForkChoice.tree _).root u
  rw [htree, hres.root_eq]
  exact hlive.of_eq hblocks hfin

theorem journal_ne_nil_of_start (hs : s.Journaled)
    (h : start params s pool initial = (.ok n, s')) : n.store.journal ≠ [] := by
  have hlater := Boot.later (boot_start params s pool initial)
  rw [h] at hlater
  obtain ⟨root, s₁, t, hroot, ht, hrepair, rfl⟩ := start_ok_cases h
  have hin := (finalized_loadRoot hs hroot).2.2
  rw [← (repairPointer_ok hrepair).1] at hin
  exact (hlater.journaled hs).journal_ne_nil hin

/-- **A node that starts keeps the archive of its store.** -/
theorem kept_of_start (hR : Linking params.consensus R)
    (hs : Recoverable R (Genesis.tip params initial) s)
    (hw : s.Weighed (.ofRule params.consensus.sealRule))
    (h : start params s pool initial = (.ok n, s')) :
    n.Kept R params (Genesis.tip params initial) := by
  have hboot := boot_start params s pool initial
  rw [h] at hboot
  obtain ⟨hsound, -, hstore⟩ := sound_of_start hs.journaled hw h
  have hrec : Recoverable R (Genesis.tip params initial) n.store := by
    rw [hstore]
    exact hboot.recoverable hs
  refine ⟨hsound, params_of_start h, hrec, fun hids => ?_⟩
  obtain ⟨u, hu⟩ := hrec.self (journal_ne_nil_of_start hs.journaled h) hids
  exact ⟨u, live_of_start hR hs.journaled hw h hu⟩

/-! ### Starts that succeed -/

theorem exists_write (params : Params) (initial : State) (hfaults : s.faults = {}) :
    ∃ s₁, Genesis.write params initial s = (.ok (Genesis.tip params initial), s₁) := by
  set genesis := Genesis.tip params initial with hgenesis
  set stored := s.addBlock genesis.block genesis.state with hstored
  have hin : stored.blocks.contains genesis.id = true := by
    obtain ⟨sb, hsb⟩ := Store.find?_addBlock_self s genesis.block genesis.state
    exact Table.contains_iff.2 ⟨sb, hsb⟩
  have hclean : stored.faults = {} := by rw [hstored, Store.faults_addBlock, hfaults]
  have hput : s.put genesis.block genesis.state = .ok stored :=
    Store.put_eq_ok_iff.2 ⟨by rw [hfaults], rfl⟩
  have hcan : stored.setPointer .canonical genesis.id = .ok (stored.point .canonical genesis.id) :=
    Store.setPointer_eq_ok_iff.2 ⟨by rw [Store.pointerFault, hclean], hin, rfl⟩
  have hset : (stored.point .canonical genesis.id).setPointer .finalized genesis.id =
      .ok ((stored.point .canonical genesis.id).point .finalized genesis.id) :=
    Store.setPointer_eq_ok_iff.2
      ⟨by rw [Store.pointerFault, Store.faults_point, hclean]; rfl, hin, rfl⟩
  refine ⟨(stored.point .canonical genesis.id).point .finalized genesis.id, ?_⟩
  simp only [Genesis.write, ← hgenesis, hput, hcan, hset, Store.flush, Store.faults_point, hclean]
  rfl

theorem exists_loadRoot (hs : Recoverable R (Genesis.tip params initial) s)
    (hids : Store.DistinctIds s.journal) (hfaults : s.faults = {}) :
    ∃ root s₁, loadRoot params initial s = (.ok root, s₁) := by
  have hget : s.getPointer .finalized = .ok s.finalized :=
    Store.read_eq_ok_iff.2 ⟨by rw [hfaults], rfl⟩
  rw [loadRoot, hget]
  cases hfin : s.finalized with
  | some id =>
    have hnil : s.journal ≠ [] := by
      intro hnil
      rw [hs.journaled.finalized_eq, hnil] at hfin
      cases hfin
    obtain ⟨u, hu⟩ := hs.self hnil hids
    obtain ⟨e, he⟩ := hu.finalized hfin
    simp only [load_of_find? hfaults (hu.archive.find?_stored he)]
    exact ⟨_, _, rfl⟩
  | none =>
    obtain ⟨s₁, hwrite⟩ := exists_write params initial hfaults
    exact ⟨Genesis.tip params initial, s₁, by simp only [hwrite]⟩

omit [Crypto] in
theorem exists_repairPointer (hfaults : s.faults = {}) (hin : s.blocks.contains id = true) :
    ∃ s', repairPointer s id = .ok s' := by
  have hget : s.getPointer .canonical = .ok s.canonical :=
    Store.read_eq_ok_iff.2 ⟨by rw [hfaults], rfl⟩
  rw [repairPointer, hget]
  simp only
  split
  · exact ⟨s, rfl⟩
  · exact ⟨_, Store.setPointer_eq_ok_iff.2 ⟨by rw [Store.pointerFault, hfaults], hin, rfl⟩⟩

/-- **Without faults a node starts.** -/
theorem exists_start (hR : Linking params.consensus R)
    (hs : Recoverable R (Genesis.tip params initial) s) (hids : Store.DistinctIds s.journal)
    (hfaults : s.faults = {}) (pool : Mempool) :
    ∃ n s', start params s pool initial = (.ok n, s') := by
  have hboot := boot_loadRoot params initial s
  obtain ⟨root, s₁, hroot⟩ := exists_loadRoot hs hids hfaults
  rw [hroot] at hboot
  have hs₁ : Recoverable R (Genesis.tip params initial) s₁ := hboot.recoverable hs
  have hclean : s₁.faults = {} := hboot.faults_eq.trans hfaults
  obtain ⟨hfin, -, hin⟩ := finalized_loadRoot hs.journaled hroot
  obtain ⟨u, hu⟩ := hs₁.self (hs₁.journaled.journal_ne_nil hin) (hboot.distinctIds hs hids)
  obtain ⟨e, he, hblock, hstate⟩ := find?_loadRoot hs.journaled hroot hu
  obtain ⟨t, ht, hres⟩ :=
    exists_restoreTree hR hu.archive hs₁.journaled.indexed hclean he hblock hstate
  -- the best tip is a block of the tree, so its pointer can be written
  have hweighted :=
    hres.part.weighted hres.wellFormed hu.archive.wellFormed (hu.archive.weighted hR)
  obtain ⟨-, hbest⟩ :=
    ForkChoice.wellFormed_ofTree params.run.finalityDepth hres.wellFormed hweighted
  obtain ⟨b, hb, -⟩ := hres.wellFormed.mem_tips.1 hbest.mem_tips
  obtain ⟨c, hc, -⟩ := hres.part _ b hb
  obtain ⟨s₂, hrepair⟩ :=
    exists_repairPointer hclean (Table.contains_iff.2 ⟨_, hu.archive.find?_stored hc⟩)
  refine ⟨.ofForkChoice params s₂ pool (.ofTree params.run.finalityDepth t), s₂, ?_⟩
  simp only [start, hroot, ht, hrepair]

end Node

end LedgerChain
