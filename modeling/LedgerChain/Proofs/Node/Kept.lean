import LedgerChain.Proofs.Archive.Live
import LedgerChain.Proofs.Node.AtBest

/-!
# Nodes over an archive

A node **keeps** its archive: whatever it does and wherever a write fails, its store stays
recoverable, and its tree the live part of the archive (`Node.Kept`, `Step.kept`).  The blocks that
it offers itself lie right above blocks of its tree (`Node.Placed`); for a block of its own this is
so because the parent still is the canonical tip.
-/

namespace LedgerChain

namespace Node

variable [Crypto] {R : ChainTip → ChainTip → Prop} {params : Params} {genesis : ChainTip}
  {n n' : Node} {tip p : ChainTip} {answer : Except ChainError (Outcome × PoolUpdate)}

/-- A sound node over a kept store. -/
structure Kept (R : ChainTip → ChainTip → Prop) (params : Params) (genesis : ChainTip) (n : Node) :
    Prop where
  sound : n.Sound
  params_eq : n.params = params
  kept : LedgerChain.Kept R genesis n.store n.forkChoice n.storedFinalized

/-- A heavy block right above a block of the tree, to which it is related. -/
structure Placed (R : ChainTip → ChainTip → Prop) (n : Node) (tip : ChainTip) : Prop where
  heavy : n.Heavy tip
  on_tree : Store.DistinctIds n.store.journal →
    ∃ below, n.forkChoice.tree.find? tip.parent = some below ∧ R below.tip tip

/-- A tip that is stored with its state. -/
def Stands (n : Node) (p : ChainTip) : Prop :=
  Store.DistinctIds n.store.journal → n.store.blocks.find? p.id = some ⟨p.block, p.state⟩

theorem Step.mono {A B : Node → ChainTip → Prop} (hAB : ∀ {n tip}, A n tip → B n tip)
    (h : Step A n n') : Step B n n' := by
  cases h with
  | aside hsame => exact .aside hsame
  | offer hA => exact .offer (hAB hA)
  | shutdown => exact .shutdown n

/-! ### Steps -/

theorem Settled.kept (h : Settled n n') (hbest : n.AtBest)
    (hn : LedgerChain.Kept R genesis n.store n.forkChoice n.storedFinalized) :
    LedgerChain.Kept R genesis n'.store n'.forkChoice n'.storedFinalized := by
  cases h with
  | unwritten hcut _ =>
    exact hn.change fun hu => hu.cutBack hbest hcut.root_mem hcut.isUpperPart
  | written hcut hstore =>
    rw [(Store.setPointer_eq_ok_iff.1 hstore).2.2]
    have hn' := hn.change fun hu => hu.cutBack hbest hcut.root_mem hcut.isUpperPart
    exact hn'.finalize

theorem Decided.kept (h : Decided n tip answer n')
    (hknown : (∀ b, ¬ n.forkChoice.tree.Fits tip b) →
      LedgerChain.Kept R genesis n.store n.forkChoice n.storedFinalized)
    (hfits : ∀ {b}, n.forkChoice.tree.Fits tip b →
      LedgerChain.Kept R genesis n.store
        { n.forkChoice with tree := n.forkChoice.tree.graft tip b } n.storedFinalized) :
    LedgerChain.Kept R genesis n'.store n'.forkChoice n'.storedFinalized := by
  cases h with
  | unchanged hnot _ => exact hknown hnot
  | stayed hb _ => exact hfits hb
  | heldBack hb _ _ _ => exact hfits hb
  | @moved below id outcome store _ hb hbest _ _ hset hsettled =>
    refine hsettled.kept hbest ?_
    have hmoved := ((hfits hb).change fun hu => hu.setBest hbest).pointCanonical id
    rw [← (Store.setPointer_eq_ok_iff.1 hset).2.2] at hmoved
    exact hmoved

theorem kept_offer (hR : Linking params.consensus R) (hn : n.Kept R params genesis)
    (htip : n.Placed R tip) :
    LedgerChain.Kept R genesis (n.offer tip).2.store (n.offer tip).2.forkChoice
      (n.offer tip).2.storedFinalized := by
  rcases n.offer_cases tip with ⟨e, heq⟩ | ⟨store, hput, heq⟩ <;> rw [heq]
  · exact hn.kept
  · have hwf : ({ n with store } : Node).forkChoice.WellFormed := hn.sound.wellFormed
    refine (decided_decide hwf htip.heavy.weight_pos).kept ?_ ?_
    · rw [(Store.put_eq_ok_iff.1 hput).2]
      exact hn.kept.put_known hR htip.on_tree
    · rw [(Store.put_eq_ok_iff.1 hput).2]
      exact hn.kept.put_fits hR htip.on_tree

theorem SameChain.kept (h : n.SameChain n')
    (hn : LedgerChain.Kept R genesis n.store n.forkChoice n.storedFinalized) :
    LedgerChain.Kept R genesis n'.store n'.forkChoice n'.storedFinalized := by
  rw [h.store, h.forkChoice, h.storedFinalized]
  exact hn

/-- **Every step of a node keeps its archive.** -/
theorem Step.kept (hR : Linking params.consensus R) (h : Step (Placed R) n n')
    (hn : n.Kept R params genesis) : n'.Kept R params genesis := by
  refine ⟨(h.mono Placed.heavy).sound hn.sound, h.params_eq.trans hn.params_eq, ?_⟩
  cases h with
  | aside hsame => exact hsame.kept hn.kept
  | offer htip => exact kept_offer hR hn htip
  | shutdown =>
    rcases n.shutdown_cases with hsame | ⟨store, hset, hrest⟩
    · exact hsame.kept hn.kept
    · have hstore := hn.kept.pointCanonical n.forkChoice.best
      rw [← (Store.setPointer_eq_ok_iff.1 hset).2.2] at hstore
      rcases hrest with hsame | ⟨store', hset', hsame⟩
      · exact hsame.kept hstore
      · have hfinal := hstore.finalize
        rw [← (Store.setPointer_eq_ok_iff.1 hset').2.2] at hfinal
        exact hsame.kept hfinal

theorem Run.kept (hR : Linking params.consensus R) (h : Run (Placed R) n n')
    (hn : n.Kept R params genesis) : n'.Kept R params genesis :=
  h.induct (fun hm hstep => hstep.kept hR hm) hn

/-! ### Operations -/

theorem Kept.find?_stored (hn : n.Kept R params genesis)
    (hids : Store.DistinctIds n.store.journal) {id : BlockId} {e : TreeEntry}
    (he : n.forkChoice.tree.find? id = some e) :
    n.store.blocks.find? id = some ⟨e.tip.block, e.tip.state⟩ := by
  obtain ⟨u, hu⟩ := hn.kept.live hids
  obtain ⟨f, hf, hblock, hstate, -⟩ := hu.part id e he
  rw [hu.archive.find?_stored hf, hblock, hstate]

/-- **All operations of a node are runs that offer placed blocks.** -/
theorem admits_placed (hR : Linking params.consensus R) :
    Admits (Kept R params genesis) Stands (Placed R) where
  step hn hstep := hstep.kept hR hn
  keep _ hp hstep hids := by
    have hlater := hstep.later
    exact hlater.find? (hp (hids.of_suffix hlater.suffix))
  canonical {n p} hn hp hids := by
    rw [canonicalTip?, ForkChoice.bestChainTip?, Option.map_eq_some_iff] at hp
    obtain ⟨e, he, rfl⟩ := hp
    rw [ChainTip.id, show e.tip.block.id = _ from hn.sound.wellFormed.tree.id_eq he]
    exact hn.find?_stored hids he
  imported {n b below tip} hn _ hshape hbelow hvalid := by
    have hb := block_eq_of_validateBlock hvalid
    refine ⟨heavy_of_validateBlock hvalid, fun _ => ⟨below, ?_, ?_⟩⟩
    · rw [ChainTip.parent, hb]
      exact hbelow
    · rw [engine, hn.params_eq] at hvalid
      exact hR.imported (hn.params_eq ▸ hshape) hvalid
  made {n p xs ctx tip} hn hp hbest hmade := by
    have hfollows := Candidate.follows_of_complete hmade
    refine ⟨⟨hfollows.weight_eq, hfollows.weight_pos⟩, fun hids => ?_⟩
    -- the parent is the canonical tip, and both are stored under the one identifier
    obtain ⟨e, he, -⟩ := hn.sound.wellFormed.best
    have hstored := hn.find?_stored hids he
    rw [hbest, hp hids, Option.some.injEq, StoredBlock.mk.injEq] at hstored
    rw [engine, hn.params_eq] at hmade
    refine ⟨e, ?_, hR.congr hstored.1 hstored.2 (hR.made hmade)⟩
    rw [hfollows.parent_eq, ← hbest]
    exact he

/-! ### Weights -/

/-- The blocks of the tree after a decision have the weights from before, or the block decided on is
new. -/
theorem Decided.weight_or (h : Decided n tip answer n') {id : BlockId} {e : TreeEntry}
    (he : n'.forkChoice.tree.find? id = some e) :
    (∃ f, n.forkChoice.tree.find? id = some f ∧ e.cumulativeWeight = f.cumulativeWeight) ∨
      id = tip.id ∧ n.forkChoice.tree.find? tip.id = none := by
  have hgraft : ∀ {below : TreeEntry}, n.forkChoice.tree.Fits tip below → ∀ {e},
      (n.forkChoice.tree.graft tip below).find? id = some e →
      (∃ f, n.forkChoice.tree.find? id = some f ∧ e.cumulativeWeight = f.cumulativeWeight) ∨
        id = tip.id ∧ n.forkChoice.tree.find? tip.id = none := by
    intro below hfits e he
    obtain ⟨hid, -⟩ | ⟨f, -, hf, -, hw, -⟩ := ChainTree.find?_of_find?_graft hfits.on_tree he
    · exact Or.inr ⟨hid, hfits.fresh⟩
    · exact Or.inl ⟨f, hf, hw⟩
  cases h with
  | unchanged _ _ => exact Or.inl ⟨e, he, rfl⟩
  | stayed hfits _ => exact hgraft hfits he
  | heldBack hfits _ _ _ => exact hgraft hfits he
  | moved hfits _ _ _ _ hsettled =>
    obtain ⟨t, hcut, heq, -⟩ := hsettled.exists_tree
    rw [heq] at he
    exact hgraft hfits (hcut.isUpperPart.of_find? he).2

theorem Kept.offer_weight_eq (hR : Linking params.consensus R) (hn : n.Kept R params genesis)
    (htip : n.Placed R tip) {id : BlockId} {e : TreeEntry}
    (hids : Store.DistinctIds (n.offer tip).2.store.journal)
    (hstored : n.store.blocks.contains id = true)
    (he : (n.offer tip).2.forkChoice.tree.find? id = some e) :
    ∃ f, n.forkChoice.tree.find? id = some f ∧ e.cumulativeWeight = f.cumulativeWeight := by
  rcases n.offer_cases tip with ⟨e', heq⟩ | ⟨store, hput, heq⟩ <;> rw [heq] at he hids
  · exact ⟨e, he, rfl⟩
  have hwf : ({ n with store } : Node).forkChoice.WellFormed := hn.sound.wellFormed
  refine ((decided_decide hwf htip.heavy.weight_pos).weight_or he).resolve_right ?_
  rintro ⟨rfl, hnew⟩
  -- the journal has the block at its head before the decision, which adds pointers only
  have hadded : store.journal <:+ (Node.decide { n with store } tip).2.store.journal :=
    (later_decide { n with store } tip).suffix
  have hids' : Store.DistinctIds (.block tip.block tip.state :: n.store.journal) := by
    have hids' := hids.of_suffix hadded
    rwa [(Store.put_eq_ok_iff.1 hput).2, Store.journal_addBlock] at hids'
  have hbefore := hids'.of_suffix (List.suffix_cons _ _)
  obtain ⟨u, hu⟩ := hn.kept.live hbefore
  obtain ⟨below, hbelow, hrel⟩ := htip.on_tree hbefore
  have hnone := hu.find?_eq_none hR hn.sound.journaled hids' hbelow hrel hnew
  obtain ⟨sb, hsb⟩ := Table.contains_iff.1 hstored
  rw [hu.archive.stored, hnone] at hsb
  cases hsb

/-- **A block of the tree has the same weight whenever it is there**, along a run. -/
theorem Run.weight_eq (hR : Linking params.consensus R) (h : Run (Placed R) n n')
    (hn : n.Kept R params genesis) (hids : Store.DistinctIds n'.store.journal) {id : BlockId}
    {e e' : TreeEntry} (he : n.forkChoice.tree.find? id = some e)
    (he' : n'.forkChoice.tree.find? id = some e') :
    e'.cumulativeWeight = e.cumulativeWeight := by
  induction h generalizing e' with
  | refl =>
    rw [he] at he'
    cases he'
    rfl
  | @tail m n' hrun hstep ih =>
    have hm := Run.kept hR hrun hn
    have hids' := hids.of_suffix hstep.later.suffix
    cases hstep with
    | aside hsame =>
      rw [hsame.forkChoice] at he'
      exact ih hids' he'
    | shutdown =>
      rw [forkChoice_shutdown] at he'
      exact ih hids' he'
    | offer htip =>
      obtain ⟨sb, hsb⟩ := Table.contains_iff.1 (hn.sound.stored he)
      have hlater : n.store.Later m.store := Run.later hrun
      have hstored := Table.contains_iff.2 ⟨sb, hlater.find? hsb⟩
      obtain ⟨f, hf, hw⟩ := hm.offer_weight_eq hR htip hids hstored he'
      exact hw.trans (ih hids' hf)

end Node

end LedgerChain
