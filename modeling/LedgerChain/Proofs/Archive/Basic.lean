import LedgerChain.Proofs.Store.Journal
import LedgerChain.Proofs.Tree.Part
import LedgerChain.Proofs.Validation

/-!
# The archive of a store

A store forgets nothing, so its blocks form a tree over genesis, its **archive**.  Nodes do not have
it; it is what they are compared with.  What is known of each block on the one below is a parameter
of the archive: that the block follows, or that it is valid there (`Linking`).

A store is **durable** if all blocks that are not above its finalized block are beaten by some block
that is.  It is **recoverable** if it comes from its journal, and is durable after any prefix of its
writes; the identifiers of different headers must differ for that.

* `linking_follows`, `linking_valid` : what is known of stored blocks can be that they follow the
  ones below, or that they are valid there.
* `Archive.addBlock` : a block that fits the archive is new to the store, and storing it attaches
  it.
* `Archive.above_iff` : lineages in the archive are lines of stored blocks.
-/

namespace LedgerChain

variable [Crypto]

/-- A relation of blocks to the ones below that all blocks have which a node stores, imported ones
and its own.  Related blocks follow each other, and it does not matter what the block below
weighs. -/
structure Linking (consensus : ConsensusParams) (R : ChainTip → ChainTip → Prop) : Prop where
  follows : ∀ {p tip}, R p tip → Follows (.ofRule consensus.sealRule) p tip
  congr : ∀ {p q tip}, p.block = q.block → p.state = q.state → R p tip → R q tip
  imported : ∀ {b p tip}, b.checkShape consensus = .ok () →
    validateBlock (.ofRule consensus.sealRule) b p = .ok tip → R p tip
  made : ∀ {p xs ctx tip},
    (Candidate.prepare p xs).1.complete (.ofRule consensus.sealRule) p ctx = .ok tip → R p tip

theorem linking_follows (consensus : ConsensusParams) :
    Linking consensus (Follows (.ofRule consensus.sealRule)) where
  follows h := h
  congr {p q tip} hblock _ h := by
    refine ⟨h.parent_eq.trans ?_, h.height_eq.trans ?_, h.weight_eq, h.weight_pos⟩
    · rw [ChainTip.id, ChainTip.id, hblock]
    · rw [ChainTip.height, ChainTip.height, hblock]
  imported _ h := follows_of_validateBlock h
  made h := Candidate.follows_of_complete h

theorem linking_valid {consensus : ConsensusParams} (hverify : Crypto.SignaturesVerify)
    (hfit : consensus.sealRule.PositionsFit) :
    Linking consensus (Valid (.ofRule consensus.sealRule)) where
  follows h := h.follows
  congr hblock hstate h := ⟨validateBlock_congr hblock hstate ▸ h.validated, h.version_eq⟩
  imported {b p tip} hshape h := by
    have hb := block_eq_of_validateBlock h
    refine ⟨hb ▸ h, ?_⟩
    rw [ChainTip.header, hb]
    exact version_eq_of_checkShape hshape
  made h := Candidate.valid_of_complete hverify hfit h

/-! ### Archives -/

/-- A tree over genesis of all blocks of a store, each related to the one below it. -/
structure Archive (R : ChainTip → ChainTip → Prop) (genesis : ChainTip) (s : Store)
    (u : ChainTree) : Prop where
  wellFormed : u.WellFormed
  root : ∃ e, u.find? u.root = some e ∧ e.tip = genesis
  stored : ∀ id, s.blocks.find? id = (u.find? id).map fun e => ⟨e.tip.block, e.tip.state⟩
  linked : ∀ {id e p}, u.find? id = some e → id ≠ u.root → u.find? e.parent = some p →
    R p.tip e.tip

namespace Archive

variable {R : ChainTip → ChainTip → Prop} {consensus : ConsensusParams} {genesis tip : ChainTip}
  {s s' : Store} {u : ChainTree} {id : BlockId} {e below : TreeEntry} {sb : StoredBlock}

theorem root_eq (h : Archive R genesis s u) : u.root = genesis.id := by
  obtain ⟨e, he, rfl⟩ := h.root
  exact (h.wellFormed.id_eq he).symm

theorem find?_stored (h : Archive R genesis s u) (he : u.find? id = some e) :
    s.blocks.find? id = some ⟨e.tip.block, e.tip.state⟩ := by
  rw [h.stored, he, Option.map_some]

theorem of_find?_stored (h : Archive R genesis s u) (hsb : s.blocks.find? id = some sb) :
    ∃ e, u.find? id = some e ∧ e.tip.block = sb.block ∧ e.tip.state = sb.state := by
  rw [h.stored, Option.map_eq_some_iff] at hsb
  obtain ⟨e, he, rfl⟩ := hsb
  exact ⟨e, he, rfl, rfl⟩

theorem exists_parent (h : Archive R genesis s u) (he : u.find? id = some e) (hne : id ≠ u.root) :
    ∃ p, u.find? e.parent = some p ∧ R p.tip e.tip := by
  obtain ⟨p, hp, -⟩ := h.wellFormed.link he hne
  exact ⟨p, hp, h.linked he hne hp⟩

theorem weighted (h : Archive R genesis s u) (hR : Linking consensus R) : u.Weighted := by
  intro id e he hne
  obtain ⟨p, -, hrel⟩ := h.exists_parent he hne
  exact (hR.follows hrel).weight_pos

theorem of_blocks_eq (h : Archive R genesis s u) (hs : s'.blocks = s.blocks) :
    Archive R genesis s' u :=
  ⟨h.wellFormed, h.root, fun id => by rw [hs]; exact h.stored id, h.linked⟩

theorem ofRoot (hs : ∀ id, s.blocks.find? id =
      if id = genesis.id then some ⟨genesis.block, genesis.state⟩ else none) :
    Archive R genesis s (.ofRoot genesis 0) where
  wellFormed := ChainTree.wellFormed_ofRoot genesis 0
  root := ⟨⟨genesis, [], 0⟩, by rw [ChainTree.find?_ofRoot]; exact if_pos rfl, rfl⟩
  stored id := by
    rw [hs, ChainTree.find?_ofRoot]
    split <;> rfl
  linked he hne _ := by
    rw [ChainTree.find?_ofRoot, if_neg (show _ ≠ genesis.id from hne)] at he
    cases he

/-- A block that fits the archive is new to the store, and storing it attaches it. -/
theorem addBlock (h : Archive R genesis s u) (hfits : u.Fits tip below) (hrel : R below.tip tip) :
    Archive R genesis (s.addBlock tip.block tip.state) (u.graft tip below) where
  wellFormed := h.wellFormed.graft hfits.fresh hfits.on_tree hfits.height_eq
  root := by
    obtain ⟨e, he, hgen⟩ := h.root
    obtain ⟨f, hf, htip, -⟩ := ChainTree.find?_graft_of_find? hfits.fresh hfits.on_tree he
    exact ⟨f, hf, htip.trans hgen⟩
  stored id := by
    have hnew : s.blocks.find? tip.block.id = none := by
      rw [h.stored]
      exact congrArg (Option.map _) hfits.fresh
    rw [Store.find?_addBlock, ChainTree.find?_graft]
    by_cases hid : id = tip.id
    · rw [if_pos ⟨hnew, hid⟩, if_pos hid, Option.map_some]
    · rw [if_neg (fun hc : _ ∧ id = tip.block.id => hid hc.2), if_neg hid, h.stored]
      by_cases hpar : id = tip.parent
      · rw [if_pos hpar, hpar, hfits.on_tree, Option.map_some, Option.map_some]
      · rw [if_neg hpar]
  linked {id e p} he hne hp := by
    -- entries have the tips that they had before
    have hold : ∀ {b f}, (u.graft tip below).find? b = some f → b ≠ tip.id →
        ∃ g, u.find? b = some g ∧ f.tip = g.tip := by
      intro b f hf hb
      obtain ⟨rfl, -⟩ | ⟨g, -, hg, htip, -⟩ := ChainTree.find?_of_find?_graft hfits.on_tree hf
      · exact absurd rfl hb
      · exact ⟨g, hg, htip⟩
    obtain ⟨rfl, rfl⟩ | ⟨f, -, hf, htip, -⟩ := ChainTree.find?_of_find?_graft hfits.on_tree he
    -- the new block is related to the one below, and it is below no other block yet
    · have hpar : tip.parent ≠ tip.id := by
        intro heq
        have hon := hfits.on_tree
        rw [heq, hfits.fresh] at hon
        cases hon
      obtain ⟨g, hg, hptip⟩ := hold hp hpar
      rw [show TreeEntry.parent _ = tip.parent from rfl, hfits.on_tree] at hg
      cases hg
      rw [hptip]
      exact hrel
    · have hparent : e.parent = f.parent := by
        rw [TreeEntry.parent, TreeEntry.parent, htip]
      obtain ⟨q, hq, hlink⟩ := h.exists_parent hf hne
      have hpar : e.parent ≠ tip.id := by
        rw [hparent]
        intro heq
        rw [heq, hfits.fresh] at hq
        cases hq
      obtain ⟨g, hg, hptip⟩ := hold hp hpar
      rw [hparent, hq] at hg
      cases hg
      rw [hptip, htip]
      exact hlink

end Archive

/-! ### Descent -/

/-- The stored blocks above a stored one: the block itself, and those with a parent above it. -/
inductive Store.Above (s : Store) (a : BlockId) : BlockId → Prop
  | self (h : s.blocks.contains a = true) : Above s a a
  | step {b : BlockId} {sb : StoredBlock} (h : s.blocks.find? b = some sb)
      (hheight : sb.block.height ≠ 0) (hparent : Above s a sb.block.parent) : Above s a b

omit [Crypto] in
theorem Store.Above.contains {s : Store} {a b : BlockId} (h : s.Above a b) :
    s.blocks.contains b = true := by
  cases h with
  | self hin => exact hin
  | step hsb _ _ => exact Table.contains_iff.2 ⟨_, hsb⟩

/-- Lineages in the archive are lines of stored blocks. -/
theorem Archive.above_iff {R : ChainTip → ChainTip → Prop} {consensus : ConsensusParams}
    {genesis : ChainTip} {s : Store} {u : ChainTree} (h : Archive R genesis s u)
    (hR : Linking consensus R) (hzero : genesis.height = 0) {a b : BlockId} :
    s.Above a b ↔ a ∈ u.lineage b := by
  have hu := h.wellFormed
  constructor
  · intro hab
    induction hab with
    | self hin =>
      obtain ⟨sb, hsb⟩ := Table.contains_iff.1 hin
      obtain ⟨e, he, -⟩ := h.of_find?_stored hsb
      exact hu.self_mem_lineage he
    | @step b sb hsb hheight _ ih =>
      obtain ⟨e, he, hblock, -⟩ := h.of_find?_stored hsb
      -- only genesis is at height zero
      have hne : b ≠ u.root := by
        rintro rfl
        obtain ⟨r, hr, rfl⟩ := h.root
        rw [he] at hr
        cases hr
        rw [← hblock] at hheight
        exact hheight hzero
      rw [hu.lineage_of_ne_root he hne]
      rw [← hblock] at ih
      exact List.mem_cons_of_mem _ ih
  · intro hab
    obtain ⟨-, e, -, he⟩ := hu.find?_of_mem_lineage hab
    refine hu.induction (P := fun b => a ∈ u.lineage b → s.Above a b) (fun hmem => ?_)
      (fun b f hf hne ih hmem => ?_) he hab
    · obtain ⟨r, hr⟩ := hu.root_mem
      rw [hu.lineage_root, List.mem_singleton] at hmem
      rw [hmem]
      exact .self (Table.contains_iff.2 ⟨_, h.find?_stored hr⟩)
    · by_cases hsame : a = b
      · rw [hsame]
        exact .self (Table.contains_iff.2 ⟨_, h.find?_stored hf⟩)
      · rw [hu.lineage_of_ne_root hf hne] at hmem
        obtain ⟨p, -, hrel⟩ := h.exists_parent hf hne
        have hheight := (hR.follows hrel).height_eq
        refine .step (h.find?_stored hf) ?_ (ih ((List.mem_cons.1 hmem).resolve_left hsame))
        show f.tip.height ≠ 0
        omega

/-! ### Durable stores -/

/-- A store with an archive in which every block that is not above the finalized one is beaten by a
block that is. -/
structure Durable (R : ChainTip → ChainTip → Prop) (genesis : ChainTip) (s : Store)
    (u : ChainTree) : Prop where
  archive : Archive R genesis s u
  finalized : ∀ {f}, s.finalized = some f → ∃ r, u.find? f = some r
  beaten : ∀ {f id e}, s.finalized = some f → u.find? id = some e → f ∉ u.lineage id →
    ∃ d g, u.find? d = some g ∧ f ∈ u.lineage d ∧
      ForkChoice.beats (d, g.cumulativeWeight) (id, e.cumulativeWeight) = true

theorem Durable.genesis_mem {R : ChainTip → ChainTip → Prop} {genesis : ChainTip} {s : Store}
    {u : ChainTree} (h : Durable R genesis s u) :
    ∃ e, u.find? genesis.id = some e ∧ e.tip = genesis ∧
      s.blocks.find? genesis.id = some ⟨genesis.block, genesis.state⟩ := by
  obtain ⟨e, he, rfl⟩ := h.archive.root
  rw [h.archive.root_eq] at he
  exact ⟨e, he, rfl, h.archive.find?_stored he⟩

theorem Durable.of_eq {R : ChainTip → ChainTip → Prop} {genesis : ChainTip} {s s' : Store}
    {u : ChainTree} (h : Durable R genesis s u) (hblocks : s'.blocks = s.blocks)
    (hfin : s'.finalized = s.finalized) : Durable R genesis s' u where
  archive := h.archive.of_blocks_eq hblocks
  finalized hf := h.finalized (hfin ▸ hf)
  beaten hf := h.beaten (hfin ▸ hf)

/-- A store that is durable after every prefix of its writes but the empty one. -/
structure Recoverable (R : ChainTip → ChainTip → Prop) (genesis : ChainTip) (s : Store) : Prop where
  journaled : s.Journaled
  durable : ∀ {w}, w <:+ s.journal → w ≠ [] → Store.DistinctIds w →
    ∃ u, Durable R genesis (Store.ofJournal w) u

namespace Recoverable

variable {R : ChainTip → ChainTip → Prop} {genesis : ChainTip} {s s' : Store}

theorem empty : Recoverable R genesis {} := by
  refine ⟨rfl, fun {w} hw hne => absurd ?_ hne⟩
  exact List.suffix_nil.1 hw

theorem withFaults (h : Recoverable R genesis s) (faults : Faults) :
    Recoverable R genesis { s with faults } :=
  ⟨h.journaled.withFaults faults, h.durable⟩

theorem of_suffix (h : Recoverable R genesis s) {w : List StoreWrite} (hw : w <:+ s.journal)
    (faults : Faults) : Recoverable R genesis { Store.ofJournal w with faults } := by
  refine ⟨Store.journaled_ofJournal w faults, fun {w'} hw' => h.durable (hw'.trans ?_)⟩
  exact (Store.journal_ofJournal w).symm ▸ hw

theorem self (h : Recoverable R genesis s) (hne : s.journal ≠ [])
    (hids : Store.DistinctIds s.journal) : ∃ u, Durable R genesis s u := by
  obtain ⟨u, hu⟩ := h.durable (List.suffix_refl _) hne hids
  exact ⟨u, hu.of_eq h.journaled.blocks_eq h.journaled.finalized_eq⟩

theorem record (h : Recoverable R genesis s) (write : StoreWrite)
    (hdur : Store.DistinctIds (write :: s.journal) → ∃ u, Durable R genesis (s.record write) u) :
    Recoverable R genesis (s.record write) := by
  refine ⟨h.journaled.record write, fun {w} hw hne hids => ?_⟩
  rw [Store.journal_record] at hw
  rcases List.suffix_cons_iff.1 hw with rfl | hw
  · obtain ⟨u, hu⟩ := hdur hids
    have hj := h.journaled.record write
    refine ⟨u, hu.of_eq ?_ ?_⟩
    · rw [← Store.journal_record, hj.blocks_eq]
    · rw [← Store.journal_record, hj.finalized_eq]
  · exact h.durable hw hne hids

end Recoverable

end LedgerChain
