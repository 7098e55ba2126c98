import LedgerChain.Proofs.Archive.Basic

/-!
# Fork choice over an archive

While a node is at work its tree is the part of the archive above its root, but for one thing:
blocks that were cut off when the root moved up are still stored.  None of them can win, since the
canonical tip beats them all; this survives later moves, as the canonical tip only ever moves to a
better block.  The stored finalized block may lag behind the root, on the root's own lineage.

This is the invariant `Live`.  A live store is durable at every moment between two of its writes
(`Live.durable`).

* `Live.graft`, `Live.setBest`, `Live.cutBack`, `Live.finalize` : attaching a block, moving the
  canonical tip to the best one, moving the root and writing the finalized pointer keep a store
  live.
* `Live.find?_eq_none` : a block right above one of the tree is stored only if it is in the tree.
-/

namespace LedgerChain

variable [Crypto]

/-- A fork choice over a store with an archive, where `written` is the last block that the finalized
pointer was set to. -/
structure Live (R : ChainTip → ChainTip → Prop) (genesis : ChainTip) (s : Store) (f : ForkChoice)
    (written : BlockId) (u : ChainTree) : Prop where
  archive : Archive R genesis s u
  fork : f.WellFormed
  part : f.tree.Part u
  above : ∀ {id}, f.tree.root ∈ u.lineage id → ∃ e, f.tree.find? id = some e
  beaten : ∀ {id e g}, u.find? id = some e → f.tree.root ∉ u.lineage id →
    u.find? f.best = some g →
    ForkChoice.beats (f.best, g.cumulativeWeight) (id, e.cumulativeWeight) = true
  finalized : s.finalized = some written
  lag : written ∈ u.lineage f.tree.root

namespace Live

variable {R : ChainTip → ChainTip → Prop} {consensus : ConsensusParams} {genesis tip : ChainTip}
  {s s' : Store} {f : ForkChoice} {written : BlockId} {u t : ChainTree} {id : BlockId}
  {e below below' : TreeEntry}

theorem of_eq (h : Live R genesis s f written u) (hblocks : s'.blocks = s.blocks)
    (hfin : s'.finalized = s.finalized) : Live R genesis s' f written u :=
  ⟨h.archive.of_blocks_eq hblocks, h.fork, h.part, h.above, h.beaten, hfin.trans h.finalized, h.lag⟩

theorem root_mem_lineage (h : Live R genesis s f written u) (he : f.tree.find? id = some e) :
    f.tree.root ∈ u.lineage id := by
  obtain ⟨r, hr⟩ := h.fork.tree.root_mem
  exact (h.fork.tree.mem_lineage_within_iff h.archive.wellFormed h.part.within hr he).2
    (h.fork.tree.root_mem_lineage he)

/-- The canonical tip lies above the block that the finalized pointer was set to. -/
theorem written_mem_lineage_best (h : Live R genesis s f written u) :
    written ∈ u.lineage f.best := by
  obtain ⟨b, hb, -⟩ := h.fork.best
  exact h.archive.wellFormed.mem_lineage_trans h.lag (h.root_mem_lineage hb)

/-- **A live store is durable.** -/
theorem durable (h : Live R genesis s f written u) : Durable R genesis s u where
  archive := h.archive
  finalized {a} ha := by
    rw [h.finalized] at ha
    cases ha
    obtain ⟨r, -, hr, -⟩ := h.archive.wellFormed.find?_of_mem_lineage h.lag
    exact ⟨r, hr⟩
  beaten {a id e} ha he hnot := by
    rw [h.finalized] at ha
    cases ha
    obtain ⟨b, hb, -⟩ := h.fork.best
    obtain ⟨g, hg, -⟩ := h.part f.best b hb
    refine ⟨f.best, g, hg, h.written_mem_lineage_best, h.beaten he (fun hroot => ?_) hg⟩
    exact hnot (h.archive.wellFormed.mem_lineage_trans h.lag hroot)

theorem beats_of_isBest (h : Live R genesis s f written u) (hbest : f.tree.IsBest f.best)
    {g : TreeEntry} (hg : u.find? f.best = some g) (he : u.find? id = some e) (hne : id ≠ f.best) :
    ForkChoice.beats (f.best, g.cumulativeWeight) (id, e.cumulativeWeight) = true := by
  by_cases hroot : f.tree.root ∈ u.lineage id
  · obtain ⟨b, hb, -⟩ := h.fork.best
    obtain ⟨e', he'⟩ := h.above hroot
    rw [← h.part.beats_iff h.fork.tree h.archive.wellFormed hb he' hg he]
    exact hbest.beats hb he' hne
  · exact h.beaten he hroot hg

/-- **Two fork choices that are live over one archive agree on the best tip**, if the root of one is
on the lineage of the other's root. -/
theorem best_eq {f' : ForkChoice} {written' : BlockId} (h : Live R genesis s f written u)
    (h' : Live R genesis s' f' written' u) (hbest : f.tree.IsBest f.best)
    (hbest' : f'.tree.IsBest f'.best) (hlow : f'.tree.root ∈ u.lineage f.tree.root) :
    f'.best = f.best := by
  have hu := h.archive.wellFormed
  obtain ⟨b, hb, -⟩ := h.fork.best
  obtain ⟨g, hg, -⟩ := h.part f.best b hb
  obtain ⟨b', hb'⟩ := h'.above (hu.mem_lineage_trans hlow (h.root_mem_lineage hb))
  refine hbest'.unique h'.fork.tree (h'.fork.tree.isBest_of_beats h'.fork.weighted hb' ?_)
  intro a c hc hne
  obtain ⟨d, hd, -⟩ := h'.part a c hc
  rw [h'.part.beats_iff h'.fork.tree hu hb' hc hg hd]
  exact h.beats_of_isBest hbest hg hd hne

theorem exists_best {f' : ForkChoice} {written' : BlockId} (h : Live R genesis s f written u)
    (h' : Live R genesis s' f' written' u) (hsame : f'.best = f.best) :
    ∃ b b', f.tree.find? f.best = some b ∧ f'.tree.find? f'.best = some b' ∧
      b.height = f.bestHeight ∧ b'.height = f'.bestHeight ∧ b'.tip.block = b.tip.block ∧
      b'.tip.state = b.tip.state := by
  obtain ⟨b, hb, hbh⟩ := h.fork.best
  obtain ⟨b', hb', hbh'⟩ := h'.fork.best
  obtain ⟨g, hg, hblock, hstate, -⟩ := h.part _ b hb
  obtain ⟨g', hg', hblock', hstate', -⟩ := h'.part _ b' hb'
  rw [hsame, hg] at hg'
  cases hg'
  exact ⟨b, b', hb, hb', hbh, hbh', hblock'.symm.trans hblock, hstate'.symm.trans hstate⟩

theorem contains_eq {f' : ForkChoice} {written' : BlockId} (h : Live R genesis s f written u)
    (h' : Live R genesis s' f' written' u) (hroot : f'.tree.root = f.tree.root) (id : BlockId) :
    f'.tree.contains id = f.tree.contains id := by
  rw [Bool.eq_iff_iff, ChainTree.contains_iff, ChainTree.contains_iff]
  constructor
  · rintro ⟨e, he⟩
    exact h.above (hroot ▸ h'.root_mem_lineage he)
  · rintro ⟨e, he⟩
    exact h'.above (hroot.symm ▸ h.root_mem_lineage he)

theorem find?_of_root_eq {f' : ForkChoice} {written' : BlockId} {r r' : TreeEntry}
    (h : Live R genesis s f written u) (h' : Live R genesis s' f' written' u)
    (hroot : f'.tree.root = f.tree.root) (hr : f.tree.find? f.tree.root = some r)
    (hr' : f'.tree.find? f'.tree.root = some r') (he : f.tree.find? id = some e) :
    ∃ e', f'.tree.find? id = some e' ∧
      e'.cumulativeWeight + r.cumulativeWeight = e.cumulativeWeight + r'.cumulativeWeight := by
  have hu := h.archive.wellFormed
  have hmem := h.root_mem_lineage he
  rw [← hroot] at hmem
  obtain ⟨e', he'⟩ := h'.above hmem
  obtain ⟨d, hd, -⟩ := h.part id e he
  obtain ⟨q, hq, -⟩ := h.part f.tree.root r hr
  have hw := h.part.weight_eq h.fork.tree hu hr hq he hd
  have hw' := h'.part.weight_eq h'.fork.tree hu hr' (hroot ▸ hq) he' hd
  exact ⟨e', he', by omega⟩

/-! ### Changes -/

theorem graft (h : Live R genesis s f written u) (hR : Linking consensus R)
    (hfits : f.tree.Fits tip below) (hfits' : u.Fits tip below') (hrel : R below'.tip tip) :
    Live R genesis (s.addBlock tip.block tip.state) { f with tree := f.tree.graft tip below }
      written (u.graft tip below') := by
  have hu := h.archive.wellFormed
  have hold : ∀ {a e}, u.find? a = some e → (u.graft tip below').lineage a = u.lineage a :=
    fun ha => hu.lineage_graft hfits'.fresh hfits'.on_tree ha
  obtain ⟨r, hr⟩ := h.fork.tree.root_mem
  obtain ⟨r', hr', -⟩ := h.part f.tree.root r hr
  refine ⟨h.archive.addBlock hfits' hrel, h.fork.graft hfits (hR.follows hrel).weight_pos,
    h.part.graft hfits hfits', fun {id} hroot => ?_, fun {id e g} he hnot hg => ?_, ?_, ?_⟩
  -- what lies above the root in the archive is in the tree
  · obtain ⟨-, e, -, he⟩ := (h.archive.addBlock hfits' hrel).wellFormed.find?_of_mem_lineage hroot
    by_cases hid : id = tip.id
    · exact ⟨_, by rw [ChainTree.find?_graft, if_pos hid]⟩
    · obtain ⟨rfl, -⟩ | ⟨a, -, ha, -⟩ := ChainTree.find?_of_find?_graft hfits'.on_tree he
      · exact absurd rfl hid
      · rw [hold ha] at hroot
        obtain ⟨b, hb⟩ := h.above hroot
        obtain ⟨c, hc, -⟩ := ChainTree.find?_graft_of_find? hfits.fresh hfits.on_tree hb
        exact ⟨c, hc⟩
  · -- the new block lies above the root, so this is about old blocks
    obtain ⟨b, hb, -⟩ := h.fork.best
    obtain ⟨g₀, hg₀, -⟩ := h.part f.best b hb
    obtain ⟨g₁, hg₁, -, hgw, -⟩ :=
      ChainTree.find?_graft_of_find? hfits'.fresh hfits'.on_tree hg₀
    have hsame : g = g₁ := Option.some.inj (hg.symm.trans hg₁)
    subst hsame
    obtain ⟨rfl, -⟩ | ⟨a, -, ha, -, haw, -⟩ := ChainTree.find?_of_find?_graft hfits'.on_tree he
    · refine absurd ?_ hnot
      rw [hu.lineage_graft_self hfits'.fresh hfits'.on_tree hfits'.height_eq]
      exact List.mem_cons_of_mem _ (h.root_mem_lineage hfits.on_tree)
    · rw [hold ha] at hnot
      rw [hgw, haw]
      exact h.beaten ha hnot hg₀
  · rw [Store.finalized_addBlock]
    exact h.finalized
  · show written ∈ (u.graft tip below').lineage f.tree.root
    rw [hold hr']
    exact h.lag

theorem setBest (h : Live R genesis s f written u) (hbest : f.tree.IsBest id) :
    Live R genesis s (f.setBest id) written u := by
  obtain ⟨e, he, -⟩ := h.fork.tree.mem_tips.1 hbest.mem_tips
  refine ⟨h.archive, h.fork.setBest he, h.part, h.above, fun {a d g} hd hnot hg => ?_, h.finalized,
    h.lag⟩
  rw [ForkChoice.best_setBest] at hg ⊢
  obtain ⟨b, hb, -⟩ := h.fork.best
  obtain ⟨b', hb', -⟩ := h.part f.best b hb
  have hold := h.beaten hd hnot hb'
  by_cases heq : f.best = id
  · rw [heq, hg] at hb'
    cases hb'
    rw [← heq]
    exact hold
  -- the new tip beats the old one, which beats all blocks off the tree
  · have hmove := hbest.beats he hb heq
    rw [h.part.beats_iff h.fork.tree h.archive.wellFormed he hb hg hb'] at hmove
    exact ForkChoice.beats_trans hmove hold

theorem cutBack (h : Live R genesis s f written u) (hbest : f.tree.IsBest f.best)
    (hmem : t.root ∈ f.tree.lineage f.best) (hpart : f.tree.IsUpperPart t.root t) :
    Live R genesis s { f with tree := t } written u := by
  have hu := h.archive.wellFormed
  obtain ⟨r, -, hr, -⟩ := h.fork.tree.find?_of_mem_lineage hmem
  have hup : ∀ {a d}, f.tree.find? a = some d →
      (t.root ∈ u.lineage a ↔ t.root ∈ f.tree.lineage a) :=
    fun ha => h.fork.tree.mem_lineage_within_iff hu h.part.within hr ha
  refine ⟨h.archive, h.fork.cutBack hmem hpart, h.part.of_isUpperPart h.fork.tree hpart,
    fun {a} ha => ?_, fun {a d g} hd hnot hg => h.beats_of_isBest hbest hg hd ?_, h.finalized,
    hu.mem_lineage_trans h.lag (h.root_mem_lineage hr)⟩
  · obtain ⟨d, hd⟩ := h.above (hu.mem_lineage_trans (h.root_mem_lineage hr) ha)
    exact ⟨d, (hpart.find?_eq ((hup hd).1 ha)).trans hd⟩
  · -- the canonical tip lies above the new root
    rintro rfl
    obtain ⟨b, hb, -⟩ := h.fork.best
    exact hnot ((hup hb).2 hmem)

theorem finalize (h : Live R genesis s f written u) :
    Live R genesis (s.point .finalized f.tree.root) f f.tree.root u := by
  obtain ⟨r, hr⟩ := h.fork.tree.root_mem
  obtain ⟨r', hr', -⟩ := h.part f.tree.root r hr
  exact ⟨h.archive.of_blocks_eq rfl, h.fork, h.part, h.above, h.beaten, rfl,
    h.archive.wellFormed.self_mem_lineage hr'⟩

/-- A block that lies right above a block of the tree is in the archive only if it is in the tree: a
stored block of the same identifier would have the same parent, and lie above the root too. -/
theorem find?_eq_none (h : Live R genesis s f written u) (hR : Linking consensus R)
    (hj : s.Journaled) (hids : Store.DistinctIds (.block tip.block tip.state :: s.journal))
    (hbelow : f.tree.find? tip.parent = some below) (hrel : R below.tip tip)
    (hknown : f.tree.find? tip.id = none) : u.find? tip.id = none := by
  have hu := h.archive.wellFormed
  obtain ⟨below', hbelow', hblock, hstate, -⟩ := h.part tip.parent below hbelow
  have hheight' := (hR.follows (hR.congr hblock.symm hstate.symm hrel)).height_eq
  by_contra hsome
  obtain ⟨e, he⟩ := Option.ne_none_iff_exists'.1 hsome
  have hheader : e.tip.block.header = tip.block.header :=
    hids _ _ _ _ (List.mem_cons_of_mem _ (hj.mem_journal (h.archive.find?_stored he)))
      List.mem_cons_self (hu.id_eq he)
  have hparent : e.parent = tip.parent := congrArg (fun h : Header => h.parent) hheader
  have heheight : e.height = below'.tip.height + 1 :=
    (congrArg (fun h : Header => h.height.toNat) hheader).trans hheight'
  have hne : tip.id ≠ u.root := by
    intro hroot
    rw [hroot] at he
    by_cases hsame : u.root = tip.parent
    · rw [hsame, hbelow'] at he
      cases he
      exact absurd heheight (by simp only [TreeEntry.height]; omega)
    · have hlt := hu.height_lt_of_mem_lineage he hbelow' (hu.root_mem_lineage hbelow') hsame
      simp only [TreeEntry.height] at hlt heheight
      omega
  have hroot : f.tree.root ∈ u.lineage tip.id := by
    rw [hu.lineage_of_ne_root he hne, hparent]
    exact List.mem_cons_of_mem _ (h.root_mem_lineage hbelow)
  obtain ⟨d, hd⟩ := h.above hroot
  rw [hknown] at hd
  cases hd

/-- **Storing a block that lies right above a block of the tree**: it is known, and nothing changes;
or it fits both tree and archive. -/
theorem put_cases (h : Live R genesis s f written u) (hR : Linking consensus R) (hj : s.Journaled)
    (hids : Store.DistinctIds (.block tip.block tip.state :: s.journal))
    (hbelow : f.tree.find? tip.parent = some below) (hrel : R below.tip tip) :
    ((∀ b, ¬ f.tree.Fits tip b) ∧
        Live R genesis (s.addBlock tip.block tip.state) f written u) ∨
      ∃ u', f.tree.Fits tip below ∧ Live R genesis (s.addBlock tip.block tip.state)
        { f with tree := f.tree.graft tip below } written u' := by
  cases hknown : f.tree.find? tip.id with
  | some e =>
    refine Or.inl ⟨fun b hfits => ?_, h.of_eq ?_ (Store.finalized_addBlock s _ _)⟩
    · rw [hfits.fresh] at hknown
      cases hknown
    · obtain ⟨e', he', -⟩ := h.part tip.id e hknown
      have hin : s.blocks.contains tip.block.id = true :=
        Table.contains_iff.2 ⟨_, h.archive.find?_stored he'⟩
      rw [Store.addBlock_of_contains hin]
  | none =>
    obtain ⟨below', hbelow', hblock, hstate, -⟩ := h.part tip.parent below hbelow
    have hrel' : R below'.tip tip := hR.congr hblock.symm hstate.symm hrel
    have hheight := (hR.follows hrel).height_eq
    have hnew := h.find?_eq_none hR hj hids hbelow hrel hknown
    exact Or.inr ⟨_, ⟨hknown, hbelow, hheight⟩, h.graft hR ⟨hknown, hbelow, hheight⟩
      ⟨hnew, hbelow', (hR.follows hrel').height_eq⟩ hrel'⟩

end Live

/-! ### Kept stores -/

/-- A recoverable store that is live, if the identifiers of different headers differ. -/
structure Kept (R : ChainTip → ChainTip → Prop) (genesis : ChainTip) (s : Store) (f : ForkChoice)
    (written : BlockId) : Prop where
  recoverable : Recoverable R genesis s
  live : Store.DistinctIds s.journal → ∃ u, Live R genesis s f written u

namespace Kept

variable {R : ChainTip → ChainTip → Prop} {consensus : ConsensusParams} {genesis tip : ChainTip}
  {s : Store} {f f' : ForkChoice} {written written' : BlockId} {below : TreeEntry}

theorem change (h : Kept R genesis s f written)
    (hlive : ∀ {u}, Live R genesis s f written u → Live R genesis s f' written' u) :
    Kept R genesis s f' written' := by
  refine ⟨h.recoverable, fun hids => ?_⟩
  obtain ⟨u, hu⟩ := h.live hids
  exact ⟨u, hlive hu⟩

theorem record (h : Kept R genesis s f written) (write : StoreWrite)
    (hlive : ∀ {u}, Store.DistinctIds (write :: s.journal) → Live R genesis s f written u →
      ∃ u', Live R genesis (s.record write) f' written' u') :
    Kept R genesis (s.record write) f' written' := by
  have hnext : Store.DistinctIds (write :: s.journal) →
      ∃ u, Live R genesis (s.record write) f' written' u := by
    intro hids
    obtain ⟨u, hu⟩ := h.live (hids.of_suffix (List.suffix_cons _ _))
    exact hlive hids hu
  refine ⟨h.recoverable.record write fun hids => ?_, fun hids => ?_⟩
  · obtain ⟨u, hu⟩ := hnext hids
    exact ⟨u, hu.durable⟩
  · rw [Store.journal_record] at hids
    exact hnext hids

theorem pointCanonical (h : Kept R genesis s f written) (id : BlockId) :
    Kept R genesis (s.point .canonical id) f written :=
  h.record (.pointer .canonical id) fun _ hu => ⟨_, hu.of_eq rfl rfl⟩

theorem finalize (h : Kept R genesis s f written) :
    Kept R genesis (s.point .finalized f.tree.root) f f.tree.root :=
  h.record (.pointer .finalized f.tree.root) fun _ hu => ⟨_, hu.finalize⟩

theorem put_known (h : Kept R genesis s f written) (hR : Linking consensus R)
    (hplace : Store.DistinctIds s.journal →
      ∃ below, f.tree.find? tip.parent = some below ∧ R below.tip tip)
    (hnot : ∀ b, ¬ f.tree.Fits tip b) :
    Kept R genesis (s.addBlock tip.block tip.state) f written := by
  refine h.record (.block tip.block tip.state) fun {u} hids hu => ?_
  obtain ⟨below, hbelow, hrel⟩ := hplace (hids.of_suffix (List.suffix_cons _ _))
  rcases hu.put_cases hR h.recoverable.journaled hids hbelow hrel with ⟨-, hu'⟩ | ⟨-, hfits, -⟩
  · exact ⟨u, hu'⟩
  · exact absurd hfits (hnot below)

theorem put_fits (h : Kept R genesis s f written) (hR : Linking consensus R)
    (hplace : Store.DistinctIds s.journal →
      ∃ below, f.tree.find? tip.parent = some below ∧ R below.tip tip)
    (hfits : f.tree.Fits tip below) :
    Kept R genesis (s.addBlock tip.block tip.state) { f with tree := f.tree.graft tip below }
      written := by
  refine h.record (.block tip.block tip.state) fun {u} hids hu => ?_
  obtain ⟨b, hb, hrel⟩ := hplace (hids.of_suffix (List.suffix_cons _ _))
  have hsame : b = below := Option.some.inj (hb.symm.trans hfits.on_tree)
  subst hsame
  rcases hu.put_cases hR h.recoverable.journaled hids hb hrel with ⟨hnot, -⟩ | ⟨u', -, hu'⟩
  · exact absurd hfits (hnot b)
  · exact ⟨u', hu'⟩

end Kept

end LedgerChain
