import LedgerChain.Proofs.Node.Cascade
import LedgerChain.Proofs.Node.Finality

/-!
# Trees that only grow

The root of a tree never moves down.  As long as it stays where it is, the tree only grows
(`Node.Run.growsInto`): its blocks stay, and whatever is accepted joins them
(`Node.hasSeen_importBlock`).
-/

namespace LedgerChain

variable [Crypto]

namespace Node

variable {n n' m : Node} {b : Block} {tip : ChainTip}
  {answer : Except ChainError (Outcome × PoolUpdate)}

/-- A decision never moves the root down.  If the root stays, the blocks of the tree stay, and a block
that fits is attached. -/
theorem Decided.grows (h : Decided n tip answer n') (hwf : n.forkChoice.WellFormed) :
    n.forkChoice.tree.rootHeight ≤ n'.forkChoice.tree.rootHeight ∧
      (n'.forkChoice.tree.rootHeight ≤ n.forkChoice.tree.rootHeight →
        (∀ {id e}, n.forkChoice.tree.find? id = some e →
          ∃ f, n'.forkChoice.tree.find? id = some f ∧ f.tip = e.tip) ∧
        ∀ {below}, n.forkChoice.tree.Fits tip below → n'.hasSeen tip.id = true) := by
  have hkeep : ∀ {below}, n.forkChoice.tree.Fits tip below → ∀ {id e},
      n.forkChoice.tree.find? id = some e →
      ∃ f, (n.forkChoice.tree.graft tip below).find? id = some f ∧ f.tip = e.tip := by
    intro below hfits id e he
    obtain ⟨f, hf, htip, -⟩ := ChainTree.find?_graft_of_find? hfits.fresh hfits.on_tree he
    exact ⟨f, hf, htip⟩
  have hself : ∀ {below}, n.forkChoice.tree.Fits tip below →
      (n.forkChoice.tree.graft tip below).contains tip.id = true := by
    intro below hfits
    exact ChainTree.contains_iff.2 ⟨_, ChainTree.find?_graft_self _ _ below⟩
  cases h with
  | unchanged hnot _ =>
    exact ⟨Nat.le_refl _, fun _ => ⟨fun he => ⟨_, he, rfl⟩, fun hfits => absurd hfits (hnot _)⟩⟩
  | stayed hfits _ =>
    exact ⟨Nat.le_of_eq (hwf.rooted.root_graft hfits).2.symm,
      fun _ => ⟨hkeep hfits, fun _ => hself hfits⟩⟩
  | heldBack hfits _ _ _ =>
    exact ⟨Nat.le_of_eq (hwf.rooted.root_graft hfits).2.symm,
      fun _ => ⟨hkeep hfits, fun _ => hself hfits⟩⟩
  | @moved below id outcome store _ hfits _ _ _ _ hsettled =>
    obtain ⟨t, hcut, heq, -⟩ := hsettled.exists_tree
    have hcut' : Cut ((n.withTip tip below).forkChoice.setBest id) t := hcut
    have htree : n'.forkChoice.tree = t := by rw [heq]
    have hroot : (n.withTip tip below).forkChoice.tree.rootHeight = n.forkChoice.tree.rootHeight :=
      (hwf.rooted.root_graft hfits).2
    have hheight := hcut'.rootHeight_eq
    have hstay := hcut'.eq_of_le
    rw [ForkChoice.tree_setBest, hroot] at hheight hstay
    rw [hasSeen, htree]
    refine ⟨by omega, fun hle => ?_⟩
    -- the root moves only up, so the tree is the one with the new block
    rw [hstay (by omega)]
    exact ⟨hkeep hfits, fun _ => hself hfits⟩

/-- The tree of the second node is that of the first one with further blocks, and parameters and
faults are the same. -/
structure GrowsInto (n n' : Node) : Prop where
  params_eq : n'.params = n.params
  faults_eq : n'.store.faults = n.store.faults
  find? : ∀ {id e}, n.forkChoice.tree.find? id = some e →
    ∃ f, n'.forkChoice.tree.find? id = some f ∧ f.tip = e.tip

omit [Crypto] in
theorem GrowsInto.hasSeen (h : n.GrowsInto n') {id : BlockId} (hid : n.hasSeen id = true) :
    n'.hasSeen id = true := by
  obtain ⟨e, he⟩ := ChainTree.contains_iff.1 hid
  obtain ⟨f, hf, -⟩ := h.find? he
  exact ChainTree.contains_iff.2 ⟨f, hf⟩

omit [Crypto] in
theorem GrowsInto.trans (h : n.GrowsInto m) (h' : m.GrowsInto n') : n.GrowsInto n' where
  params_eq := h'.params_eq.trans h.params_eq
  faults_eq := h'.faults_eq.trans h.faults_eq
  find? he := by
    obtain ⟨f, hf, hfe⟩ := h.find? he
    obtain ⟨g, hg, hgf⟩ := h'.find? hf
    exact ⟨g, hg, hgf.trans hfe⟩

/-- A step never moves the root down.  If the root stays, the blocks of the tree stay. -/
theorem Step.grows (h : Step Heavy n n') (hwf : n.forkChoice.WellFormed) :
    n.forkChoice.tree.rootHeight ≤ n'.forkChoice.tree.rootHeight ∧
      (n'.forkChoice.tree.rootHeight ≤ n.forkChoice.tree.rootHeight → n.GrowsInto n') := by
  have hparams := h.params_eq
  have hfaults := h.faults_eq
  cases h with
  | aside hsame =>
    rw [hsame.forkChoice]
    exact ⟨Nat.le_refl _, fun _ => ⟨hparams, hfaults,
      fun he => ⟨_, by rw [hsame.forkChoice]; exact he, rfl⟩⟩⟩
  | shutdown =>
    rw [forkChoice_shutdown]
    exact ⟨Nat.le_refl _, fun _ => ⟨hparams, hfaults,
      fun he => ⟨_, by rw [forkChoice_shutdown]; exact he, rfl⟩⟩⟩
  | @offer tip hheavy =>
    rcases n.offer_cases tip with ⟨e, heq⟩ | ⟨store, -, heq⟩ <;> rw [heq] at hparams hfaults ⊢
    · exact ⟨Nat.le_refl _, fun _ => ⟨hparams, hfaults, fun he => ⟨_, he, rfl⟩⟩⟩
    · have hwf' : ({ n with store } : Node).forkChoice.WellFormed := hwf
      obtain ⟨hle, hstay⟩ := (decided_decide hwf' hheavy.weight_pos).grows hwf'
      exact ⟨hle, fun hroot => ⟨hparams, hfaults, (hstay hroot).1⟩⟩

theorem Run.rootHeight_le (h : Run Heavy n n') (hwf : n.forkChoice.WellFormed) :
    n.forkChoice.tree.rootHeight ≤ n'.forkChoice.tree.rootHeight := by
  induction h with
  | refl => exact Nat.le_refl _
  | tail hrun hstep ih => exact ih.trans (hstep.grows (Run.wellFormed hrun hwf)).1

/-- **As long as the root stays, the tree only grows.** -/
theorem Run.growsInto (h : Run Heavy n n') (hwf : n.forkChoice.WellFormed)
    (hroot : n'.forkChoice.tree.rootHeight ≤ n.forkChoice.tree.rootHeight) : n.GrowsInto n' := by
  induction h with
  | refl => exact ⟨rfl, rfl, fun he => ⟨_, he, rfl⟩⟩
  | @tail m n' hrun hstep ih =>
    have hwf' := Run.wellFormed hrun hwf
    obtain ⟨hle, hstay⟩ := hstep.grows hwf'
    have hstart := Run.rootHeight_le hrun hwf
    exact (ih (by omega)).trans (hstay (by omega))

theorem hasSeen_offer {outcome : Outcome} {update : PoolUpdate} (hwf : n.forkChoice.WellFormed)
    (hheavy : n.Heavy tip) (hparent : n.hasSeen tip.parent = true)
    (hok : (n.offer tip).1 = .ok (outcome, update))
    (hroot : (n.offer tip).2.forkChoice.tree.rootHeight ≤ n.forkChoice.tree.rootHeight) :
    (n.offer tip).2.hasSeen tip.id = true := by
  rcases n.offer_cases tip with ⟨e, heq⟩ | ⟨store, -, heq⟩ <;> rw [heq] at hok hroot ⊢
  · cases hok
  have hwf' : ({ n with store } : Node).forkChoice.WellFormed := hwf
  have hd := decided_decide hwf' hheavy.weight_pos
  have hjoined := (hd.grows hwf').2 hroot
  rcases hres : Node.decide { n with store } tip with ⟨answer, n'⟩
  rw [hres] at hd hok hjoined
  -- a block that is not attached is in the tree, or its parent is not
  cases hd with
  | unchanged _ hanswer =>
    rcases hanswer with ⟨hin, -⟩ | ⟨hout, -⟩ | ⟨e, rfl⟩
    · exact hin
    · rw [hasSeen, ChainTree.find?_eq_none_iff.1 hout] at hparent
      cases hparent
    · cases hok
  | stayed hfits _ => exact hjoined.2 hfits
  | heldBack _ _ _ _ => cases hok
  | moved hfits _ _ _ _ _ => exact hjoined.2 hfits

theorem Handled.hasSeen_of_accepted {answer : ImportAnswer} (h : Handled n b answer n')
    (hwf : n.forkChoice.WellFormed) {result : ImportResult} (hok : answer = .ok result)
    (haccepted : result.isAccepted = true)
    (hroot : n'.forkChoice.tree.rootHeight ≤ n.forkChoice.tree.rootHeight) :
    n'.hasSeen b.id = true := by
  cases h with
  | passed hnot _ =>
    cases hok
    rw [hnot] at haccepted
    cases haccepted
  | unread _ => cases hok
  | refused _ =>
    cases hok
    cases haccepted
  | held _ _ _ _ =>
    cases hok
    rw [isAccepted_holdOrphan] at haccepted
    cases haccepted
  | failed _ _ => cases hok
  | @decided tip outcome update hchecks hoffer =>
    have hsame := sameChain_updatePool (n.offer tip).2 update
    have hparent := hchecks.hasSeen_parent
    rw [hsame.forkChoice] at hroot
    rw [Node.hasSeen, hsame.forkChoice]
    have hjoined := hasSeen_offer hwf hchecks.heavy
      (by rw [ChainTip.parent, hchecks.block_eq]; exact hparent) hoffer hroot
    rwa [ChainTip.id, hchecks.block_eq] at hjoined

theorem hasSeen_importBlock (hn : n.Orderly) (hsound : n.Sound) {result : ImportResult}
    (h : n.importBlock b = (.ok result, n')) (haccepted : result.isAccepted = true)
    (hroot : n'.forkChoice.tree.rootHeight ≤ n.forkChoice.tree.rootHeight) :
    n'.hasSeen b.id = true := by
  have hone := handled_importOne n b
  have hrun := admits_heavy.importOne hsound.wellFormed b
  rw [importBlock] at h
  rcases himport : n.importOne b with ⟨e | r, n₁⟩ <;> rw [himport] at h hone hrun
  · cases h
  simp only at h
  split at h
  · rename_i hrefused
    cases h
    rw [haccepted] at hrefused
    cases hrefused
  · have hcascade := (hone.orderly hn).cascade_releaseOrphans b.id
    rcases hrel : n₁.releaseOrphans b.id with ⟨_ | _, n₂⟩ <;> rw [hrel] at h hcascade
    · cases h
    · cases h
      have hwf := hrun.wellFormed hsound.wellFormed
      have hlow := hrun.rootHeight_le hsound.wellFormed
      have hmore := hcascade.run hwf
      have hhigh := hmore.rootHeight_le hwf
      -- the cascade moves the root no further, so it keeps the block
      exact (hmore.growsInto hwf (hroot.trans hlow)).hasSeen
        (hone.hasSeen_of_accepted hsound.wellFormed rfl haccepted (hhigh.trans hroot))

end Node

end LedgerChain
