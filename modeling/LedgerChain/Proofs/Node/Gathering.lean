import LedgerChain.Proofs.Node.AtBest
import LedgerChain.Proofs.OrphanPool

/-!
# Gathering a set of blocks

A set of blocks over genesis is handed to a node, in any order (`BlockSet`).  All along, the tree
holds some of the blocks and the pool of orphans some others (`Node.Gathers`): a block whose parent
is in the tree is attached (`Gathers.importOne_fits`), and any other waits
(`Gathers.importOne_waits`).

The faults are none, the pool has room for all, and the chain is too short for the root to move.

* `Gathers.offered` : a gathering node goes on gathering after it has attached a block of the set.
* `Gathers.rootHeight_lt`, `Gathers.getBlock_eq_none` : a block whose parent is not in the tree is
  neither stale nor stored.
* `Gathers.of_same` : only chain, orphans and memory of invalid blocks matter.
-/

namespace LedgerChain

variable [Crypto]

/-- A set of blocks with states and weights, each of them well-shaped and valid on genesis or on
another one of them, with distinct identifiers.  A node with the given parameters can take them all
in. -/
structure BlockSet (params : Params) (genesis : ChainTip) (tips : List ChainTip) : Prop where
  shaped : ∀ tip ∈ tips, tip.block.checkShape params.consensus = .ok ()
  valid : ∀ tip ∈ tips, ∃ p ∈ genesis :: tips,
    validateBlock (.ofRule params.consensus.sealRule) tip.block p = .ok tip
  nodup : ((genesis :: tips).map ChainTip.id).Nodup
  height_le : ∀ tip ∈ tips, tip.height ≤ params.run.finalityDepth
  room : ∃ capacity, params.run.orphanPolicy = .hold capacity ∧ tips.length ≤ capacity

namespace BlockSet

variable {params : Params} {genesis tip a b : ChainTip} {tips : List ChainTip}

theorem eq_of_id (h : BlockSet params genesis tips) (ha : a ∈ genesis :: tips)
    (hb : b ∈ genesis :: tips) (hid : a.id = b.id) : a = b :=
  List.inj_on_of_nodup_map h.nodup ha hb hid

theorem follows (h : BlockSet params genesis tips) (htip : tip ∈ tips) :
    ∃ p ∈ genesis :: tips, Follows (.ofRule params.consensus.sealRule) p tip ∧
      validateBlock (.ofRule params.consensus.sealRule) tip.block p = .ok tip := by
  obtain ⟨p, hp, hvalid⟩ := h.valid tip htip
  exact ⟨p, hp, follows_of_validateBlock hvalid, hvalid⟩

theorem height_pos (h : BlockSet params genesis tips) (htip : tip ∈ tips) : 1 ≤ tip.height := by
  obtain ⟨p, -, hfollows, -⟩ := h.follows htip
  rw [hfollows.height_eq]
  exact Nat.le_add_left _ _

theorem eq_genesis (h : BlockSet params genesis tips) (ha : a ∈ genesis :: tips)
    (hheight : a.height = 0) : a = genesis := by
  rcases List.mem_cons.1 ha with rfl | ha
  · rfl
  · have := h.height_pos ha
    omega

end BlockSet

namespace Node

variable {params : Params} {genesis tip : ChainTip} {tips w : List ChainTip} {n n' : Node}

/-- A node that has some blocks of the set in its tree, and keeps others as orphans. -/
structure Gathers (params : Params) (genesis : ChainTip) (tips : List ChainTip) (n : Node)
    (w : List ChainTip) : Prop where
  sound : n.Sound
  params_eq : n.params = params
  faults : n.store.faults = {}
  depth : n.forkChoice.finalityDepth = params.run.finalityDepth
  root_eq : n.forkChoice.tree.root = genesis.id
  root_weight : ∀ {e}, n.forkChoice.tree.find? n.forkChoice.tree.root = some e →
    e.cumulativeWeight = 0
  known : ∀ {id e}, n.forkChoice.tree.find? id = some e → e.tip ∈ genesis :: tips
  stored : ∀ {id}, n.store.blocks.contains id = true → n.hasSeen id = true
  invalid : n.invalid.ids = []
  best : n.AtBest
  pool : ∃ pool, n.orphans = some pool ∧ pool.Holds (w.map ChainTip.block) ∧
    tips.length ≤ pool.capacity
  waiting : ∀ tip ∈ w, tip ∈ tips ∧ n.hasSeen tip.id = false

namespace Gathers

theorem of_same (h : Gathers params genesis tips n w) (hsame : n.SameChain n')
    (horphans : n'.orphans = n.orphans) (hinvalid : n'.invalid = n.invalid) :
    Gathers params genesis tips n' w where
  sound := Step.sound (.aside hsame) h.sound
  params_eq := hsame.params.trans h.params_eq
  faults := hsame.store ▸ h.faults
  depth := hsame.forkChoice ▸ h.depth
  root_eq := hsame.forkChoice ▸ h.root_eq
  root_weight he := by
    rw [hsame.forkChoice] at he
    exact h.root_weight he
  known he := by
    rw [hsame.forkChoice] at he
    exact h.known he
  stored hid := by
    rw [hsame.store] at hid
    rw [hasSeen, hsame.forkChoice]
    exact h.stored hid
  invalid := hinvalid ▸ h.invalid
  best := by
    rw [AtBest, hsame.forkChoice]
    exact h.best
  pool := horphans ▸ h.pool
  waiting tip htip := by
    rw [hasSeen, hsame.forkChoice]
    exact h.waiting tip htip

theorem find?_eq (h : Gathers params genesis tips n w) (hset : BlockSet params genesis tips)
    (htip : tip ∈ genesis :: tips) {e : TreeEntry}
    (he : n.forkChoice.tree.find? tip.id = some e) : e.tip = tip :=
  hset.eq_of_id (h.known he) htip (h.sound.wellFormed.tree.id_eq he)

theorem genesis_seen (h : Gathers params genesis tips n w) : n.hasSeen genesis.id = true := by
  obtain ⟨r, hr⟩ := h.sound.wellFormed.tree.root_mem
  rw [h.root_eq] at hr
  exact ChainTree.contains_iff.2 ⟨r, hr⟩

theorem rootHeight_eq (h : Gathers params genesis tips n w) (hset : BlockSet params genesis tips)
    (hzero : genesis.height = 0) : n.forkChoice.tree.rootHeight = 0 := by
  obtain ⟨r, hr⟩ := h.sound.wellFormed.tree.root_mem
  have htip : r.tip = genesis := h.find?_eq hset List.mem_cons_self (h.root_eq ▸ hr)
  rw [ChainTree.rootHeight, hr, Option.map_some, Option.getD_some, TreeEntry.height, htip, hzero]

theorem not_invalid (h : Gathers params genesis tips n w) {id : BlockId} :
    n.invalid.contains id = false := by
  rw [RecentIds.contains, h.invalid]
  rfl

/-! ### A block whose parent is in the tree -/

theorem height_graft_le (h : Gathers params genesis tips n w) (hset : BlockSet params genesis tips)
    (hzero : genesis.height = 0) (htip : tip ∈ tips) {below e : TreeEntry} {id : BlockId}
    (hfits : n.forkChoice.tree.Fits tip below)
    (he : (n.forkChoice.tree.graft tip below).find? id = some e) :
    e.height ≤ params.run.finalityDepth := by
  obtain ⟨-, rfl⟩ | ⟨f, -, hf, hsame, -⟩ := ChainTree.find?_of_find?_graft hfits.on_tree he
  · exact hset.height_le tip htip
  · rw [TreeEntry.height, hsame]
    rcases List.mem_cons.1 (h.known hf) with heq | hmem
    · rw [heq, hzero]
      exact Nat.zero_le _
    · exact hset.height_le f.tip hmem

/-- **Without faults a block that fits is attached**, and the node stays at its best. -/
theorem offer_fits (h : Gathers params genesis tips n w) (hset : BlockSet params genesis tips)
    (hzero : genesis.height = 0) (htip : tip ∈ tips) (hheavy : n.Heavy tip) {below : TreeEntry}
    (hfits : n.forkChoice.tree.Fits tip below) :
    ∃ outcome update n', n.offer tip = (.ok (outcome, update), n') ∧
      (ImportResult.ofOutcome outcome).isAccepted = true ∧ n'.AtBest ∧
      n'.forkChoice.tree = n.forkChoice.tree.graft tip below ∧ n'.orphans = n.orphans ∧
      n'.invalid = n.invalid ∧ n'.params = n.params ∧
      n'.forkChoice.finalityDepth = n.forkChoice.finalityDepth := by
  have hput : n.store.put tip.block tip.state = .ok (n.store.addBlock tip.block tip.state) :=
    Store.put_eq_ok_iff.2 ⟨by rw [h.faults], rfl⟩
  have heq : n.offer tip =
      Node.decide { n with store := n.store.addBlock tip.block tip.state } tip := by
    rw [offer, hput]
  have hwf :
      (Node.forkChoice { n with store := n.store.addBlock tip.block tip.state }).WellFormed :=
    h.sound.wellFormed
  have hd := decided_decide hwf hheavy.weight_pos
  rw [heq]
  rcases hres : Node.decide { n with store := n.store.addBlock tip.block tip.state } tip with
    ⟨answer, n'⟩
  rw [hres] at hd
  have hrest := hd.rest_eq
  -- no write fails, so the tip stays or moves, and the tree is too low to be cut back
  cases hd with
  | unchanged hnot _ => exact absurd hfits (hnot below)
  | @stayed below' hfits' hbest =>
    have hsame : below' = below := Option.some.inj (hfits'.on_tree.symm.trans hfits.on_tree)
    subst hsame
    exact ⟨_, _, _, rfl, rfl, hbest, rfl, hrest⟩
  | heldBack hfits' hbest _ herr =>
    have hwrites := pointerWrites_of_setPointer_error h.sound hput hbest.mem_tips herr
    rw [h.faults] at hwrites
    cases hwrites
  | @moved below' id outcome store _ hfits' hbest _ hchanged _ hsettled =>
    have hsame : below' = below := Option.some.inj (hfits'.on_tree.symm.trans hfits.on_tree)
    subst hsame
    obtain ⟨t, hcut, hfork, -⟩ := hsettled.exists_tree
    obtain ⟨e, he, -⟩ := (hwf.graft hfits' hheavy.weight_pos).tree.mem_tips.1 hbest.mem_tips
    have hlow := h.height_graft_le hset hzero htip hfits' he
    have htree : t = n.forkChoice.tree.graft tip below' := by
      refine hcut.eq_of_le ?_
      show ((((n.forkChoice.tree.graft tip below').find? id).map TreeEntry.height).getD _) ≤
        _ + n.forkChoice.finalityDepth
      rw [he, Option.map_some, Option.getD_some, h.depth]
      omega
    refine ⟨_, _, _, rfl, ?_, hsettled.atBest hbest, by rw [hfork, htree], hrest⟩
    cases outcome with
    | ignored reason => cases hchanged
    | extended => rfl
    | switched retract apply => rfl

/-- A gathering node is at the parent of the block with the very tip that the block is valid on. -/
theorem exists_below (h : Gathers params genesis tips n w) (hset : BlockSet params genesis tips)
    (htip : tip ∈ tips) (hparent : n.hasSeen tip.parent = true) :
    ∃ below, n.forkChoice.tree.find? tip.parent = some below ∧ tip.height = below.height + 1 ∧
      validateBlock n.engine tip.block below.tip = .ok tip := by
  obtain ⟨p, hp, hfollows, hvalid⟩ := hset.follows htip
  obtain ⟨below, hbelow⟩ := ChainTree.contains_iff.1 hparent
  have hsame : below.tip = p := by
    refine h.find?_eq hset hp ?_
    rw [← hfollows.parent_eq]
    exact hbelow
  refine ⟨below, hbelow, ?_, ?_⟩
  · rw [hfollows.height_eq, TreeEntry.height, hsame]
  · rw [engine, h.params_eq, hsame]
    exact hvalid

theorem hasSeen_graft {below : TreeEntry} (hfits : n.forkChoice.tree.Fits tip below)
    (htree : n'.forkChoice.tree = n.forkChoice.tree.graft tip below) (id : BlockId) :
    n'.hasSeen id = true ↔ n.hasSeen id = true ∨ id = tip.id := by
  rw [hasSeen, hasSeen, htree, ChainTree.contains_iff, ChainTree.contains_iff]
  constructor
  · rintro ⟨e, he⟩
    obtain ⟨hid, -⟩ | ⟨f, -, hf, -⟩ := ChainTree.find?_of_find?_graft hfits.on_tree he
    · exact Or.inr hid
    · exact Or.inl ⟨f, hf⟩
  · rintro (⟨e, he⟩ | hid)
    · obtain ⟨f, hf, -⟩ := ChainTree.find?_graft_of_find? hfits.fresh hfits.on_tree he
      exact ⟨f, hf⟩
    · exact ⟨_, by rw [ChainTree.find?_graft, if_pos hid]⟩

theorem stored_offer (n : Node) (tip : ChainTip) {id : BlockId}
    (hid : (n.offer tip).2.store.blocks.contains id = true) :
    n.store.blocks.contains id = true ∨ id = tip.id := by
  refine store_offer (n := n) (S := fun s => ∀ id, s.blocks.contains id = true →
    n.store.blocks.contains id = true ∨ id = tip.id) ?_ ?_ (fun id hid => Or.inl hid) id hid
  · intro s p a hs id hid
    rw [Store.blocks_point] at hid
    exact hs id hid
  · intro hs id hid
    obtain ⟨sb, hsb⟩ := Table.contains_iff.1 hid
    rw [Store.find?_addBlock] at hsb
    split at hsb
    · rename_i hnew
      exact Or.inr hnew.2
    · exact Or.inl (Table.contains_iff.2 ⟨sb, hsb⟩)

theorem offered (h : Gathers params genesis tips n w) (hset : BlockSet params genesis tips)
    (hzero : genesis.height = 0) (htip : tip ∈ tips) (hheavy : n.Heavy tip) {below : TreeEntry}
    (hfits : n.forkChoice.tree.Fits tip below) (hout : tip ∉ w) :
    ∃ outcome update n', n.offer tip = (.ok (outcome, update), n') ∧
      (ImportResult.ofOutcome outcome).isAccepted = true ∧ Gathers params genesis tips n' w ∧
      ∀ id, n'.hasSeen id = true ↔ n.hasSeen id = true ∨ id = tip.id := by
  obtain ⟨outcome, update, n', hoffer, haccepted, hbest, htree, horphans, hinvalid, hparams,
    hdepth⟩ := h.offer_fits hset hzero htip hheavy hfits
  have hseen := hasSeen_graft hfits htree
  have hstep : Step Heavy n (n.offer tip).2 := .offer hheavy
  have hstored : ∀ {id}, (n.offer tip).2.store.blocks.contains id = true →
      n.store.blocks.contains id = true ∨ id = tip.id := fun hid => stored_offer n tip hid
  rw [hoffer] at hstep hstored
  refine ⟨outcome, update, n', hoffer, haccepted, ⟨hstep.sound h.sound, hparams.trans h.params_eq,
    hstep.faults_eq.trans h.faults, hdepth.trans h.depth, ?_, fun {e} he => ?_, fun {id e} he => ?_,
    fun {id} hid => (hseen id).2 ((hstored hid).imp_left h.stored), hinvalid ▸ h.invalid, hbest,
    horphans ▸ h.pool, fun t ht => ⟨(h.waiting t ht).1, ?_⟩⟩, hseen⟩
  · rw [htree, ChainTree.root_graft]
    exact h.root_eq
  · rw [htree, ChainTree.root_graft] at he
    obtain ⟨hid, -⟩ | ⟨f, -, hf, -, hcw, -⟩ := ChainTree.find?_of_find?_graft hfits.on_tree he
    · obtain ⟨r, hr⟩ := h.sound.wellFormed.tree.root_mem
      rw [hid, hfits.fresh] at hr
      cases hr
    · rw [hcw]
      exact h.root_weight hf
  · rw [htree] at he
    obtain ⟨-, rfl⟩ | ⟨f, -, hf, hftip, -⟩ := ChainTree.find?_of_find?_graft hfits.on_tree he
    · exact List.mem_cons_of_mem _ htip
    · rw [hftip]
      exact h.known hf
  · obtain ⟨hmem, hnot⟩ := h.waiting t ht
    rw [← Bool.not_eq_true, hseen, not_or, Bool.not_eq_true]
    refine ⟨hnot, fun hid => hout ?_⟩
    rw [← hset.eq_of_id (List.mem_cons_of_mem _ hmem) (List.mem_cons_of_mem _ htip) hid]
    exact ht

/-- **A new block of the set is accepted if its parent is in the tree.** -/
theorem importOne_fits (h : Gathers params genesis tips n w) (hset : BlockSet params genesis tips)
    (hzero : genesis.height = 0) (htip : tip ∈ tips) (hnew : n.hasSeen tip.id = false)
    (hparent : n.hasSeen tip.parent = true) (hout : tip ∉ w) :
    ∃ result n', n.importOne tip.block = (.ok result, n') ∧ result.isAccepted = true ∧
      Gathers params genesis tips n' w ∧
      ∀ id, n'.hasSeen id = true ↔ n.hasSeen id = true ∨ id = tip.id := by
  obtain ⟨below, hbelow, hheight, hvalid⟩ := h.exists_below hset htip hparent
  have hheavy := heavy_of_validateBlock hvalid
  obtain ⟨outcome, update, n₁, hoffer, haccepted, hn₁, hseen⟩ := h.offered hset hzero htip hheavy
    ⟨ChainTree.find?_eq_none_iff.2 hnew, hbelow, hheight⟩ hout
  have hsame := sameChain_updatePool n₁ update
  refine ⟨.ofOutcome outcome, n₁.updatePool update, ?_, haccepted, hn₁.of_same hsame ?_ ?_,
    fun id => ?_⟩
  · rw [importOne, show n.hasSeen tip.block.id = false from hnew, h.not_invalid, h.params_eq,
      hset.shaped tip htip]
    simp only [Bool.false_eq_true, if_false, show n.forkChoice.tree.find? tip.block.parent = _ from
      hbelow, importOnParent, hvalid, submitTip_eq, hoffer]
  · rw [updatePool]
    split <;> rfl
  · rw [updatePool]
    split <;> rfl
  · rw [hasSeen, hsame.forkChoice]
    exact hseen id

/-! ### A block whose parent is not in the tree -/

theorem withPool (h : Gathers params genesis tips n w) {w' : List ChainTip} {pool : OrphanPool}
    (hholds : pool.Holds (w'.map ChainTip.block)) (hcapacity : tips.length ≤ pool.capacity)
    (hwaiting : ∀ t ∈ w', t ∈ tips ∧ n.hasSeen t.id = false) :
    Gathers params genesis tips { n with orphans := some pool } w' where
  sound := ⟨h.sound.wellFormed, h.sound.journaled, h.sound.weighed, h.sound.written⟩
  params_eq := h.params_eq
  faults := h.faults
  depth := h.depth
  root_eq := h.root_eq
  root_weight := h.root_weight
  known := h.known
  stored := h.stored
  invalid := h.invalid
  best := h.best
  pool := ⟨pool, rfl, hholds, hcapacity⟩
  waiting := hwaiting

theorem length_lt (h : Gathers params genesis tips n w) (htip : tip ∈ tips) (hout : tip ∉ w) :
    w.length < tips.length := by
  obtain ⟨pool, -, hholds, -⟩ := h.pool
  have hnodup : (tip :: w).Nodup :=
    List.nodup_cons.2 ⟨hout, List.Nodup.of_map _ (List.Nodup.of_map _ hholds.nodup)⟩
  have hsub : tip :: w ⊆ tips := by
    intro t ht
    rcases List.mem_cons.1 ht with rfl | ht
    · exact htip
    · exact (h.waiting t ht).1
  exact (List.subperm_of_subset hnodup hsub).length_le

theorem mem_ids_iff (h : Gathers params genesis tips n w) (hset : BlockSet params genesis tips)
    (htip : tip ∈ tips) : tip.block.id ∈ (w.map ChainTip.block).map Block.id ↔ tip ∈ w := by
  rw [List.map_map, List.mem_map]
  constructor
  · rintro ⟨t, ht, hid⟩
    have hsame := hset.eq_of_id (List.mem_cons_of_mem _ (h.waiting t ht).1)
      (List.mem_cons_of_mem _ htip) hid
    exact hsame ▸ ht
  · intro hmem
    exact ⟨tip, hmem, rfl⟩

/-- A block whose parent is not in the tree is not stale: only genesis has children at height one,
and it is in the tree. -/
theorem rootHeight_lt (h : Gathers params genesis tips n w) (hset : BlockSet params genesis tips)
    (hzero : genesis.height = 0) (htip : tip ∈ tips) (hparent : n.hasSeen tip.parent = false) :
    n.forkChoice.tree.rootHeight + 1 < tip.height := by
  rw [h.rootHeight_eq hset hzero]
  by_contra hle
  obtain ⟨p, hp, hfollows, -⟩ := hset.follows htip
  have hheight := hfollows.height_eq
  have hgen := hset.eq_genesis hp (by omega)
  rw [hfollows.parent_eq, hgen, h.genesis_seen] at hparent
  cases hparent

theorem getBlock_eq_none (h : Gathers params genesis tips n w) {id : BlockId}
    (hid : n.hasSeen id = false) : n.store.getBlock id = .ok none := by
  have hnone : n.store.blocks.find? id = none := by
    cases hfind : n.store.blocks.find? id with
    | none => rfl
    | some sb =>
      have hseen := h.stored (Table.contains_iff.2 ⟨sb, hfind⟩)
      rw [hid] at hseen
      cases hseen
  simp only [Store.getBlock, Store.read, h.faults, hnone, Option.map_none, ite_self]
  rfl

theorem importOne_eq (h : Gathers params genesis tips n w) (hset : BlockSet params genesis tips)
    (hzero : genesis.height = 0) (htip : tip ∈ tips) (hnew : n.hasSeen tip.id = false)
    (hparent : n.hasSeen tip.parent = false) :
    n.importOne tip.block = (.ok (n.holdOrphan tip.block).1, (n.holdOrphan tip.block).2) := by
  have hhigh : ¬ tip.block.height ≤ n.forkChoice.tree.rootHeight + 1 :=
    Nat.not_le.2 (h.rootHeight_lt hset hzero htip hparent)
  have hget : n.store.getBlock tip.block.parent = .ok none := h.getBlock_eq_none hparent
  have hbelow : n.forkChoice.tree.find? tip.block.parent = none :=
    ChainTree.find?_eq_none_iff.2 hparent
  rw [importOne, show n.hasSeen tip.block.id = false from hnew, h.not_invalid, h.params_eq,
    hset.shaped tip htip]
  simp only [Bool.false_eq_true, if_false, hbelow, importUnknownParent, if_neg hhigh, hget]

/-- **A new block of the set waits if its parent is not in the tree.** -/
theorem importOne_waits (h : Gathers params genesis tips n w) (hset : BlockSet params genesis tips)
    (hzero : genesis.height = 0) (htip : tip ∈ tips) (hnew : n.hasSeen tip.id = false)
    (hparent : n.hasSeen tip.parent = false) :
    ∃ w' n', n.importOne tip.block = (.ok .pendingParent, n') ∧ n'.forkChoice = n.forkChoice ∧
      Gathers params genesis tips n' w' ∧ ∀ t, t ∈ w' ↔ t ∈ w ∨ t = tip := by
  obtain ⟨pool, hpool, hholds, hcapacity⟩ := h.pool
  rw [h.importOne_eq hset hzero htip hnew hparent, holdOrphan, hpool]
  by_cases hin : tip ∈ w
  · have hcontains : pool.contains tip.block.id = true :=
      hholds.contains_iff.2 ((h.mem_ids_iff hset htip).2 hin)
    refine ⟨w, { n with orphans := some pool }, ?_, rfl, h.withPool hholds hcapacity h.waiting,
      fun t => ⟨Or.inl, fun ht => ht.elim (fun ht => ht) fun ht => ht ▸ hin⟩⟩
    simp [OrphanPool.insert, hcontains]
  · have hids := mt (h.mem_ids_iff hset htip).1 hin
    have hlt := h.length_lt htip hin
    have hinsert : pool.insert tip.block = (true, pool.append tip.block) :=
      hholds.insert_eq hids (by rw [List.length_map]; omega)
    refine ⟨w ++ [tip], { n with orphans := some (pool.append tip.block) }, ?_, rfl,
      h.withPool ?_ hcapacity fun t ht => ?_, fun t => ?_⟩
    · simp [hinsert]
    · rw [List.map_append]
      exact hholds.append hids
    · rcases List.mem_append.1 ht with ht | ht
      · exact h.waiting t ht
      · rw [List.mem_singleton.1 ht]
        exact ⟨htip, hnew⟩
    · rw [List.mem_append, List.mem_singleton]

end Gathers

end Node

end LedgerChain
