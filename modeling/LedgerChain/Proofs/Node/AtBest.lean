import LedgerChain.Proofs.Node.Storage
import LedgerChain.Proofs.Validation

/-!
# When a node is at its best

An import that is accepted leaves the node at its best: an orphan released by it whose pointer could
not be written would have failed the whole import (`atBest_importBlock`).

Making a block succeeds although the release of orphans fails, and also if the block turns out to be
in the tree already, which can be after an earlier pointer could not be written.  The first does no
harm, since a move of the canonical tip shows that pointers can be written (`Run.atBest_or_held`).
The second leaves the canonical tip below the block that was made (`atBest_or_held_author`).
-/

namespace LedgerChain

namespace Node

variable [Crypto] {n n' m : Node} {tip p : ChainTip} {b : Block}

theorem heavy_of_validateBlock (h : validateBlock n.engine b p = .ok tip) : n.Heavy tip :=
  ⟨(follows_of_validateBlock h).weight_eq, (follows_of_validateBlock h).weight_pos⟩

theorem admits_heavy :
    Admits (fun n => n.forkChoice.WellFormed) (fun _ _ => True) Heavy where
  step hwf hstep := hstep.wellFormed hwf
  keep _ _ _ := trivial
  canonical _ _ := trivial
  imported _ _ _ _ hvalid := heavy_of_validateBlock hvalid
  made _ _ _ hmade :=
    ⟨(Candidate.follows_of_complete hmade).weight_eq,
      (Candidate.follows_of_complete hmade).weight_pos⟩

/-! ### Imports -/

theorem Decided.atBest_of_ok {outcome : Outcome} {update : PoolUpdate}
    (h : Decided n tip (.ok (outcome, update)) n')
    (hbest : n.AtBest ∨ (ImportResult.ofOutcome outcome).isAccepted = true) : n'.AtBest := by
  by_cases hknown : outcome = .ignored .alreadyKnown
  · subst hknown
    have hat : n.AtBest := hbest.resolve_right Bool.false_ne_true
    cases h with
    | unchanged _ _ => exact hat
    | moved _ _ _ hchanged _ _ => cases hchanged
  by_cases hstale : outcome = .ignored .stale
  · subst hstale
    have hat : n.AtBest := hbest.resolve_right Bool.false_ne_true
    cases h with
    | unchanged _ _ => exact hat
    | moved _ _ _ hchanged _ _ => cases hchanged
  exact h.atBest hknown hstale

theorem atBest_submitTip {outcome : Outcome} (hwf : n.forkChoice.WellFormed)
    (hpos : 1 ≤ tip.weight) (h : n.submitTip tip = (.ok outcome, n'))
    (hbest : n.AtBest ∨ (ImportResult.ofOutcome outcome).isAccepted = true) : n'.AtBest := by
  rw [submitTip_eq] at h
  rcases n.offer_cases tip with ⟨e, heq⟩ | ⟨store, -, heq⟩
  · rw [heq] at h
    cases h
  · have hd := decided_decide (n := { n with store }) hwf hpos
    rw [heq] at h
    rcases hres : Node.decide { n with store } tip with ⟨_ | ⟨outcome', update⟩, n₁⟩ <;>
      rw [hres] at h hd
    · cases h
    · cases h
      have hat : n₁.AtBest := hd.atBest_of_ok hbest
      rw [AtBest, (sameChain_updatePool n₁ update).forkChoice]
      exact hat

/-- A block that was handed in without a failure leaves the node at its best, if it was accepted or
the node was there before. -/
theorem atBest_importOne {result : ImportResult} (hwf : n.forkChoice.WellFormed)
    (h : n.importOne b = (.ok result, n')) (hbest : n.AtBest ∨ result.isAccepted = true) :
    n'.AtBest := by
  rcases n.importOne_cases b with ⟨hsame, hnot⟩ | ⟨below, tip, -, -, -, hvalid, heq⟩
  · rw [h] at hsame hnot
    have hat : n.AtBest := by
      refine hbest.resolve_right fun hacc => ?_
      cases result with
      | accepted o => exact hnot o rfl
      | ignored _ => cases hacc
      | pendingParent => cases hacc
      | rejected _ => cases hacc
    rw [AtBest, hsame.forkChoice]
    exact hat
  · rw [h] at heq
    have hpos := (heavy_of_validateBlock hvalid).weight_pos
    rcases hres : n.submitTip tip with ⟨_ | outcome, n₁⟩ <;> rw [hres] at heq
    · cases heq
    · cases heq
      exact atBest_submitTip hwf hpos hres hbest

theorem atBest_importReleased {bs : List Block} {accepted : List BlockId}
    (hwf : n.forkChoice.WellFormed) (h : n.importReleased bs = (.ok accepted, n'))
    (hbest : n.AtBest) : n'.AtBest := by
  induction bs generalizing n accepted with
  | nil =>
    cases h
    exact hbest
  | cons b rest ih =>
    rw [importReleased] at h
    rcases hres : n.importOne b with ⟨_ | result, n₁⟩ <;> rw [hres] at h
    · cases h
    · have hone := admits_heavy.importOne hwf b
      rw [hres] at hone
      simp only at h
      rcases hres₂ : n₁.importReleased rest with ⟨_ | ids, n₂⟩ <;> rw [hres₂] at h
      · cases h
      · cases h
        exact ih (Run.wellFormed hone hwf) hres₂ (atBest_importOne hwf hres (Or.inl hbest))

theorem atBest_releaseFrom {steps : Nat} {stack : List BlockId} (hwf : n.forkChoice.WellFormed)
    (h : n.releaseFrom steps stack = (.ok (), n')) (hbest : n.AtBest) : n'.AtBest := by
  induction steps generalizing n stack with
  | zero =>
    cases h
    exact hbest
  | succ steps ih =>
    cases stack with
    | nil =>
      cases h
      exact hbest
    | cons parent stack =>
      have hsame := sameChain_takeOrphans n parent
      have hwf₁ : (n.takeOrphans parent).2.forkChoice.WellFormed := hsame.forkChoice ▸ hwf
      have hbest₁ : (n.takeOrphans parent).2.AtBest := by
        rw [AtBest, hsame.forkChoice]
        exact hbest
      rw [releaseFrom] at h
      simp only at h
      rcases hres : (n.takeOrphans parent).2.importReleased (n.takeOrphans parent).1 with
        ⟨_ | accepted, n₂⟩ <;> rw [hres] at h
      · cases h
      · have hin := admits_heavy.importReleased hwf₁ (n.takeOrphans parent).1
        rw [hres] at hin
        exact ih (Run.wellFormed hin hwf₁) h (atBest_importReleased hwf₁ hres hbest₁)

/-- **An accepted import leaves the node at its best.** -/
theorem atBest_importBlock {outcome : Outcome} (hwf : n.forkChoice.WellFormed)
    (h : n.importBlock b = (.ok (.accepted outcome), n')) : n'.AtBest := by
  rw [importBlock] at h
  rcases hres : n.importOne b with ⟨_ | result, n₁⟩ <;> rw [hres] at h
  · cases h
  · simp only at h
    split at h
    · rename_i hnot
      cases h
      cases hnot
    · rename_i hacc
      have hone := admits_heavy.importOne hwf b
      rw [hres] at hone
      have hbest := atBest_importOne hwf hres (Or.inr (by simpa using hacc))
      rcases hres₂ : n₁.releaseOrphans b.id with ⟨_ | _, n₂⟩ <;> rw [hres₂] at h
      · cases h
      · cases h
        exact atBest_releaseFrom (Run.wellFormed hone hwf) hres₂ hbest

/-! ### Runs with pointers that can be written -/

/-- The second node has not moved its canonical tip, and still has all blocks of the tree. -/
structure Held (n n' : Node) : Prop where
  best_eq : n'.forkChoice.best = n.forkChoice.best
  find? : ∀ {id e}, n.forkChoice.tree.find? id = some e →
    ∃ f, n'.forkChoice.tree.find? id = some f ∧ f.tip = e.tip

omit [Crypto] in
theorem Held.trans (h₁ : n.Held m) (h₂ : m.Held n') : n.Held n' where
  best_eq := h₂.best_eq.trans h₁.best_eq
  find? he := by
    obtain ⟨f, hf, hfe⟩ := h₁.find? he
    obtain ⟨g, hg, hgf⟩ := h₂.find? hf
    exact ⟨g, hg, hgf.trans hfe⟩

omit [Crypto] in
theorem held_of_forkChoice_eq (h : n'.forkChoice = n.forkChoice) : n.Held n' where
  best_eq := by rw [h]
  find? he := ⟨_, by rw [h]; exact he, rfl⟩

theorem held_of_graft {below : TreeEntry} (hfits : n.forkChoice.tree.Fits tip below)
    (hbest : n'.forkChoice.best = n.forkChoice.best)
    (htree : n'.forkChoice.tree = n.forkChoice.tree.graft tip below) : n.Held n' where
  best_eq := hbest
  find? he := by
    obtain ⟨f, hf, htip, -⟩ := ChainTree.find?_graft_of_find? hfits.fresh hfits.on_tree he
    exact ⟨f, by rw [htree]; exact hf, htip⟩

theorem pointerWrites_of_setPointer_error {store : Store} {below : TreeEntry} {id : BlockId}
    {e : StoreError} (hn : n.Sound) (hput : n.store.put tip.block tip.state = .ok store)
    (hid : id ∈ (n.forkChoice.tree.graft tip below).tips)
    (h : store.setPointer .canonical id = .error e) : n.store.faults.pointerWrites = true := by
  have hstored : store.blocks.contains id = true := by
    rw [Table.contains_iff]
    rcases (ChainTree.mem_tips_graft below).1 hid with rfl | ⟨hold, -⟩
    · rw [(Store.put_eq_ok_iff.1 hput).2]
      exact Store.find?_addBlock_self n.store tip.block tip.state
    · obtain ⟨f, hf, -⟩ := hn.wellFormed.tree.mem_tips.1 hold
      obtain ⟨sb, hsb⟩ := Table.contains_iff.1 (hn.stored hf)
      exact ⟨sb, (Store.later_put hput).find? hsb⟩
  have hfaults := Store.faults_put hput
  rw [Store.setPointer, hstored] at h
  split at h
  · rename_i hfault
    rw [← hfaults]
    exact hfault
  · cases h

/-- A step moves the canonical tip to the best tip, writing the pointer, or holds it.  If pointers
can be written, a node that is at its best stays there. -/
theorem Step.atBest_or_held (h : Step Heavy n n') (hn : n.Sound) :
    (n'.AtBest ∧ n.store.faults.pointerWrites = false) ∨
      (n.Held n' ∧ (n.AtBest → n.store.faults.pointerWrites = false → n'.AtBest)) := by
  cases h with
  | aside hsame =>
    refine Or.inr ⟨held_of_forkChoice_eq hsame.forkChoice, fun hbest _ => ?_⟩
    rw [AtBest, hsame.forkChoice]
    exact hbest
  | shutdown =>
    refine Or.inr ⟨held_of_forkChoice_eq n.forkChoice_shutdown, fun hbest _ => ?_⟩
    rw [AtBest, forkChoice_shutdown]
    exact hbest
  | @offer tip hheavy =>
    rcases n.offer_cases tip with ⟨e, heq⟩ | ⟨store, hput, heq⟩ <;> rw [heq]
    · exact Or.inr ⟨held_of_forkChoice_eq rfl, fun hbest _ => hbest⟩
    · have hwf : ({ n with store } : Node).forkChoice.WellFormed := hn.wellFormed
      have hd := decided_decide hwf hheavy.weight_pos
      rcases hres : Node.decide { n with store } tip with ⟨answer, n₁⟩
      rw [hres] at hd
      cases hd with
      | unchanged _ _ => exact Or.inr ⟨held_of_forkChoice_eq rfl, fun hbest _ => hbest⟩
      | stayed hfits hbest => exact Or.inr ⟨held_of_graft hfits rfl rfl, fun _ _ => hbest⟩
      | heldBack hfits hbest _ herr =>
        refine Or.inr ⟨held_of_graft hfits rfl rfl, fun _ hwrites => ?_⟩
        rw [pointerWrites_of_setPointer_error hn hput hbest.mem_tips herr] at hwrites
        cases hwrites
      | moved _ hbest _ _ hset hsettled =>
        refine Or.inl ⟨hsettled.atBest hbest, ?_⟩
        rw [← Store.faults_put hput]
        exact (Store.setPointer_eq_ok_iff.1 hset).1

/-- **With faults that stay as they are, a run leaves the node at its best with pointers that can be
written, or holds its canonical tip.** -/
theorem Run.atBest_or_held (h : Run Heavy n n') (hn : n.Sound) :
    (n'.AtBest ∧ n.store.faults.pointerWrites = false) ∨ n.Held n' := by
  induction h with
  | refl => exact Or.inr (held_of_forkChoice_eq rfl)
  | @tail m n' hrun hstep ih =>
    have hfaults : m.store.faults = n.store.faults := Run.faults_eq hrun
    rcases hstep.atBest_or_held (Run.sound hrun hn) with ⟨hbest, hwrites⟩ | ⟨hheld, hkeep⟩
    · exact Or.inl ⟨hbest, hfaults ▸ hwrites⟩
    · rcases ih with ⟨hbest, hwrites⟩ | hheld'
      · exact Or.inl ⟨hkeep hbest (hfaults ▸ hwrites), hwrites⟩
      · exact Or.inr (hheld'.trans hheld)

theorem Run.atBest (h : Run Heavy n n') (hn : n.Sound) (hbest : n.AtBest)
    (hwrites : n.store.faults.pointerWrites = false) : n'.AtBest := by
  induction h with
  | refl => exact hbest
  | @tail m n' hrun hstep ih =>
    have hfaults : m.store.faults = n.store.faults := Run.faults_eq hrun
    rcases hstep.atBest_or_held (Run.sound hrun hn) with ⟨hbest', -⟩ | ⟨-, hkeep⟩
    · exact hbest'
    · exact hkeep ih (hfaults ▸ hwrites)

/-! ### Blocks of one's own -/

/-- The block and state of a tip were written. -/
def Written (n : Node) (p : ChainTip) : Prop := .block p.block p.state ∈ n.store.journal

theorem admits_sound : Admits Sound Written Heavy where
  step hn hstep := hstep.sound hn
  keep _ hp hstep := hstep.later.suffix.subset hp
  canonical {n p} hn hp := by
    rw [canonicalTip?, ForkChoice.bestChainTip?, Option.map_eq_some_iff] at hp
    obtain ⟨e, he, rfl⟩ := hp
    exact hn.written he
  imported _ _ _ _ hvalid := heavy_of_validateBlock hvalid
  made _ _ _ hmade :=
    ⟨(Candidate.follows_of_complete hmade).weight_eq,
      (Candidate.follows_of_complete hmade).weight_pos⟩

theorem not_atBest_of_child (hn : n.Sound) (hids : Store.DistinctIds n.store.journal)
    (hp : n.Written p) (htip : n.Written tip) (hheight : tip.height = p.height + 1)
    (hparent : tip.parent = p.id) (hbest : n.forkChoice.best = p.id) {e : TreeEntry}
    (he : n.forkChoice.tree.find? tip.id = some e) : ¬ n.AtBest := by
  have hwf := hn.wellFormed.tree
  obtain ⟨g, hg, -⟩ := hn.wellFormed.best
  -- the entries under the two identifiers have the headers of the two blocks
  have heq : e.tip.header = tip.header := hids _ _ _ _ (hn.written he) htip (hwf.id_eq he)
  have hgeq : g.tip.header = p.header :=
    hids _ _ _ _ (hn.written hg) hp ((hwf.id_eq hg).trans hbest)
  have heh : e.height = tip.height := congrArg (fun h : Header => h.height.toNat) heq
  have hgh : g.height = p.height := congrArg (fun h : Header => h.height.toNat) hgeq
  have hepar : e.parent = n.forkChoice.best := by
    rw [hbest, ← hparent]
    exact congrArg (fun h : Header => h.parent) heq
  have hroot : tip.id ≠ n.forkChoice.tree.root := by
    intro hroot
    rw [hroot] at he
    by_cases hsame : n.forkChoice.tree.root = n.forkChoice.best
    · rw [← hsame, he] at hg
      cases hg
      omega
    · have := hwf.height_lt_of_mem_lineage he hg (hwf.root_mem_lineage hg) hsame
      omega
  obtain ⟨q, hq, hchild, -⟩ := hwf.link he hroot
  rw [hepar, hg] at hq
  cases hq
  intro hat
  obtain ⟨g', hg', hnil⟩ := hwf.mem_tips.1 hat.mem_tips
  rw [hg] at hg'
  cases hg'
  rw [hnil] at hchild
  cases hchild

theorem Decided.cases_of_child {outcome : Outcome} {update : PoolUpdate}
    (h : Decided n tip (.ok (outcome, update)) n') (hwf : n.forkChoice.WellFormed)
    (hparent : tip.parent = n.forkChoice.best) :
    (outcome = .ignored .alreadyKnown ∧ n.hasSeen tip.id = true ∧ n' = n) ∨
      (outcome.changedCanonical = true ∧ n'.AtBest ∧ n.store.faults.pointerWrites = false) := by
  obtain ⟨e, he, -⟩ := hwf.best
  cases h with
  | unchanged _ hanswer =>
    rcases hanswer with ⟨hin, heq⟩ | ⟨hout, -⟩ | ⟨e, heq⟩
    · cases heq
      exact Or.inl ⟨rfl, hin, rfl⟩
    · rw [hparent, he] at hout
      cases hout
    · cases heq
  | stayed hfits hbest =>
    -- the canonical tip has a child now, so it is no tip
    rcases (ChainTree.mem_tips_graft _).1 hbest.mem_tips with heq | ⟨-, hne⟩
    · rw [heq, hfits.fresh] at he
      cases he
    · exact absurd hparent.symm hne
  | moved _ hbest _ hchanged hset hsettled =>
    exact Or.inr ⟨hchanged, hsettled.atBest hbest, (Store.setPointer_eq_ok_iff.1 hset).1⟩

/-- **A block that was made is the new best tip, or was in the tree before.**  In the second case
the canonical tip may have stayed right below it, which is then not the best tip. -/
theorem atBest_or_held_author (hn : n.Sound) {config : AuthoringConfig} {timelines : Nat → Timeline}
    {r : AuthoredBlock} {answers : List TimelineAnswers}
    (h : n.author config timelines = (⟨.ok r, answers⟩, n')) :
    (r.outcome.changedCanonical = true ∧ n'.AtBest) ∨
      (r.outcome = .ignored .alreadyKnown ∧
        (n'.AtBest ∨ n'.forkChoice.best = r.block.parent ∧
          (Store.DistinctIds n'.store.journal → ¬ n'.AtBest))) := by
  obtain ⟨m, a, tip, ⟨hrun, hp, xs, ctx, hmade⟩, hsub⟩ := admits_sound.authorFrom_made hn h
  obtain ⟨hbest, hblock, update, n₁, hoffer, rfl⟩ := submitSealed_made_cases hsub
  have hfollows := Candidate.follows_of_complete hmade
  have hheavy : (m.unregister a.token).Heavy tip := ⟨hfollows.weight_eq, hfollows.weight_pos⟩
  have hm : (m.unregister a.token).Sound :=
    Step.sound (.aside (sameChain_unregister m a.token)) (Run.sound hrun hn)
  have hstep : Step Heavy (m.unregister a.token) ((m.unregister a.token).offer tip).2 :=
    .offer hheavy
  -- what the block's orphans do afterwards is a run from `n₁`
  have hn₁ : n₁.Sound := by
    have hn₁ := hstep.sound hm
    rwa [hoffer] at hn₁
  have hpool : Run Heavy n₁ (n₁.updatePool update) := .aside (sameChain_updatePool n₁ update)
  have hrelease : Run Heavy n₁ ((n₁.updatePool update).releaseOrphans tip.id).2 :=
    hpool.trans (admits_sound.releaseFrom (Run.sound hpool hn₁) _ _)
  rcases (m.unregister a.token).offer_cases tip with ⟨e, heq⟩ | ⟨store, hput, heq⟩
  · rw [heq] at hoffer
    cases hoffer
  rw [heq] at hoffer hstep
  have hwf : ({ m.unregister a.token with store } : Node).forkChoice.WellFormed := hm.wellFormed
  have hd := decided_decide hwf hheavy.weight_pos
  rw [hoffer] at hd hstep
  rcases hd.cases_of_child hwf (hfollows.parent_eq.trans hbest.symm) with
    ⟨hknown, hin, rfl⟩ | ⟨hchanged, hat, hwrites⟩
  · refine Or.inr ⟨hknown, ?_⟩
    rcases hrelease.atBest_or_held hn₁ with ⟨hat, -⟩ | hheld
    · exact Or.inl hat
    · have hbest' := hheld.best_eq.trans hbest
      refine Or.inr ⟨?_, fun hids => ?_⟩
      · rw [hblock]
        exact hbest'.trans hfollows.parent_eq.symm
      · obtain ⟨e, he⟩ := ChainTree.contains_iff.1 hin
        obtain ⟨f, hf, -⟩ := hheld.find? he
        have hwrite : Store.Later m.store store := Store.later_put hput
        have hafter : store.Later ((Node.updatePool _ _).releaseOrphans tip.id).2.store :=
          hrelease.later
        refine not_atBest_of_child (hrelease.sound hn₁) hids
          (hafter.suffix.subset (hwrite.suffix.subset hp)) (hafter.suffix.subset ?_)
          hfollows.height_eq hfollows.parent_eq hbest' hf
        rw [(Store.put_eq_ok_iff.1 hput).2, Store.journal_addBlock]
        exact List.mem_cons_self
  · refine Or.inl ⟨hchanged, hrelease.atBest hn₁ hat ?_⟩
    rw [hstep.faults_eq, ← Store.faults_put hput]
    exact hwrites

end Node

end LedgerChain
