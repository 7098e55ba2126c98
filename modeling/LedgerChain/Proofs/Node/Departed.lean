import LedgerChain.Proofs.Node.Growth

/-!
# Blocks that are done with

Three kinds of blocks make no difference to a node any more, whatever it does from then on.

* A block that is **gone**: it is stored, but has left the tree (`Node.Gone`).  It does not come back
  (`Run.gone`).
* A block that is **outdated**: its parent is gone, or it is too low for any parent that the tree
  may have (`Node.Outdated`).  What is called stale is outdated, and what is outdated is not accepted
  (`outdated_of_stale`, `Outdated.not_accepted`).
* A block that was **taken**: it was attached after it had been checked (`Node.Taken`).  It is in the
  tree; or its parent is stored and not in the tree, which is what makes it stale
  (`Taken.ignores_importOne`).

The last one is where the store has to keep the evidence.  All blocks above the root that are stored
are in the tree, so a block can be missing there only together with its parent
(`Kept.parent_of_written`).
-/

namespace LedgerChain

variable [Crypto]

namespace Node

variable {R : ChainTip → ChainTip → Prop} {params : Params} {genesis tip : ChainTip} {n n' : Node}
  {b c : Block} {id : BlockId}

/-! ### Blocks that left the tree -/

/-- The block is stored, and not in the tree. -/
structure Gone (n : Node) (id : BlockId) : Prop where
  stored : n.store.blocks.contains id = true
  unseen : n.hasSeen id = false

theorem Run.contains {A : Node → ChainTip → Prop} (h : Run A n n')
    (hin : n.store.blocks.contains id = true) : n'.store.blocks.contains id = true := by
  have hlater : n.store.Later n'.store := Run.later h
  obtain ⟨sb, hsb⟩ := Table.contains_iff.1 hin
  exact Table.contains_iff.2 ⟨sb, hlater.find? hsb⟩

/-- **A block that left the tree does not come back**, by induction over the steps: the only blocks
that join are those that were not stored before. -/
theorem Run.gone (h : Run (Placed R) n n') (hR : Linking params.consensus R)
    (hn : n.Kept R params genesis) (hids : Store.DistinctIds n'.store.journal)
    (hgone : n.Gone id) : n'.Gone id := by
  refine ⟨h.contains hgone.stored, ?_⟩
  induction h with
  | refl => exact hgone.unseen
  | @tail m n' hrun hstep ih =>
    have hunseen := ih (hids.of_suffix hstep.later.suffix)
    cases hstep with
    | aside hsame => rwa [hasSeen, hsame.forkChoice]
    | shutdown => rwa [hasSeen, forkChoice_shutdown]
    | offer htip =>
      rw [Bool.eq_false_iff]
      intro hin
      obtain ⟨e, he⟩ := ChainTree.contains_iff.1 hin
      obtain ⟨f, hf, -⟩ := (Run.kept hR hrun hn).offer_weight_eq hR htip hids
        (Run.contains hrun hgone.stored) he
      rw [hasSeen, ChainTree.contains_iff.2 ⟨f, hf⟩] at hunseen
      cases hunseen

/-! ### Outdated blocks -/

/-- The block is not above any block above the root, and not above its parent if this is the root. -/
structure TooLow (n : Node) (b : Block) : Prop where
  low : b.height ≤ n.forkChoice.tree.rootHeight + 1
  unfit : ∀ {e}, n.forkChoice.tree.find? b.parent = some e → b.height ≠ e.height + 1

/-- The parent of the block is gone, or the block is too low. -/
def Outdated (n : Node) (b : Block) : Prop := n.Gone b.parent ∨ n.TooLow b

/-- A block that is too low stays so: a parent at the right height would be the root, and the root
would be the same as before. -/
theorem Run.tooLow (h : Run Heavy n n') (hwf : n.forkChoice.WellFormed) (hlow : n.TooLow b) :
    n'.TooLow b := by
  have hwf' := h.wellFormed hwf
  have hrise := h.rootHeight_le hwf
  refine ⟨hlow.low.trans (Nat.succ_le_succ hrise), fun {e} he hheight => ?_⟩
  have hbelow : e.height ≤ n.forkChoice.tree.rootHeight := by
    have hle := hlow.low
    omega
  obtain ⟨r, hr⟩ := hwf.tree.root_mem
  obtain ⟨r', hr'⟩ := hwf'.tree.root_mem
  -- blocks other than the root are higher than the root
  have hroot : ∀ {a f}, n'.forkChoice.tree.find? a = some f →
      f.height ≤ n'.forkChoice.tree.rootHeight → a = n'.forkChoice.tree.root := by
    intro a f hf hle
    by_contra hne
    have hlt := hwf'.tree.height_lt_of_mem_lineage hr' hf (hwf'.tree.root_mem_lineage hf)
      (Ne.symm hne)
    rw [ChainTree.rootHeight_eq hr'] at hle
    omega
  have hparent := hroot he (hbelow.trans hrise)
  have hsame : e.height = n'.forkChoice.tree.rootHeight := by
    rw [hparent, hr', Option.some.injEq] at he
    rw [ChainTree.rootHeight_eq hr', he]
  obtain ⟨f, hf, htip⟩ := (h.growsInto hwf (hsame ▸ hbelow)).find? hr
  have hfr : f.height = r.height := by rw [TreeEntry.height, htip, TreeEntry.height]
  have hrh := ChainTree.rootHeight_eq hr
  have hstill := hroot hf (by omega)
  rw [← hparent] at hstill
  rw [hstill] at hr
  exact hlow.unfit hr (by omega)

theorem Run.outdated (h : Run (Placed R) n n') (hR : Linking params.consensus R)
    (hn : n.Kept R params genesis) (hids : Store.DistinctIds n'.store.journal)
    (hout : n.Outdated b) : n'.Outdated b := by
  have hheavy : Run Heavy n n' := Relation.ReflTransGen.mono (fun _ _ => Step.mono Placed.heavy) _ _ h
  exact hout.imp (h.gone hR hn hids) (hheavy.tooLow hn.sound.wellFormed)

theorem Outdated.not_accepted (h : n.Outdated b) (o : Outcome) :
    (n.importOne b).1 ≠ .ok (.accepted o) := by
  rcases n.importOne_cases b with ⟨-, hnot⟩ | ⟨below, tip, -, -, hbelow, hvalid, -⟩
  · exact hnot o
  rcases h with hgone | hlow
  · have hunseen := hgone.unseen
    rw [hasSeen, ChainTree.contains_iff.2 ⟨below, hbelow⟩] at hunseen
    cases hunseen
  · have hheight := (follows_of_validateBlock hvalid).height_eq
    rw [ChainTip.height, block_eq_of_validateBlock hvalid] at hheight
    exact absurd hheight (hlow.unfit hbelow)

theorem Checks.not_stale (h : n.Checks b tip) (hn : n.Sound) {outcome : Outcome}
    {update : PoolUpdate} (hoffer : (n.offer tip).1 = .ok (outcome, update)) :
    ImportResult.ofOutcome outcome ≠ .ignored .stale := by
  intro hstale
  have haccepted := h.isAccepted_of_offer hn hoffer
  rw [hstale] at haccepted
  cases haccepted

theorem not_stale_holdOrphan (n : Node) (b : Block) : (n.holdOrphan b).1 ≠ .ignored .stale := by
  rw [holdOrphan]
  split
  · exact fun h => by cases h
  · simp only
    split <;> exact fun h => by cases h

/-- **What is called stale is outdated.** -/
theorem outdated_of_stale (hn : n.Sound) (h : (n.importOne b).1 = .ok (.ignored .stale)) :
    n.Outdated b := by
  cases hseen : n.hasSeen b.id with
  | true =>
    rw [importOne, if_pos hseen] at h
    cases h
  | false =>
    cases hinvalid : n.invalid.contains b.id with
    | true =>
      simp only [importOne, hseen, hinvalid, Bool.false_eq_true, if_false, if_true] at h
      cases h
    | false =>
      simp only [importOne, hseen, hinvalid, Bool.false_eq_true, if_false] at h
      cases hshape : b.checkShape n.params.consensus with
      | error e =>
        simp only [hshape, reject] at h
        cases h
      | ok u =>
        simp only [hshape] at h
        cases hbelow : n.forkChoice.tree.find? b.parent with
        | none =>
          simp only [hbelow, importUnknownParent] at h
          split at h
          -- stale for its height
          · rename_i hlow
            refine Or.inr ⟨hlow, fun he => ?_⟩
            rw [hbelow] at he
            cases he
          · split at h
            · cases h
            -- stale since its parent is stored
            · rename_i b' hread
              exact Or.inl ⟨Table.contains_iff.2 (Store.find?_of_getBlock hread),
                ChainTree.find?_eq_none_iff.1 hbelow⟩
            · exact absurd (Except.ok.inj h) (not_stale_holdOrphan n b)
        | some below =>
          simp only [hbelow, importOnParent] at h
          cases hvalid : validateBlock n.engine b below.tip with
          | error e =>
            simp only [hvalid, reject] at h
            cases h
          | ok tip =>
            have hchecks := checks_of_validateBlock hseen hbelow hvalid
            simp only [hvalid, submitTip_eq] at h
            rcases hoffer : n.offer tip with ⟨e | ⟨outcome, update⟩, n₁⟩ <;> rw [hoffer] at h
            · cases h
            · exact absurd (Except.ok.inj h) (hchecks.not_stale hn (by rw [hoffer]))

/-! ### Blocks that were taken -/

/-- The block was written after its shape had been checked, and it is not remembered as invalid. -/
structure Taken (n : Node) (b : Block) : Prop where
  shape : b.checkShape n.params.consensus = .ok ()
  written : b ∈ Store.writtenBlocks n.store.journal
  clean : b.id ∉ n.invalid.ids

/-- **The parent of a block that was written is stored, and if the parent is in the tree then so is
the block.**  The archive has them both, and the tree is its part above the root. -/
theorem Kept.parent_of_written (hn : n.Kept R params genesis) (hzero : genesis.height = 0)
    (hids : Store.DistinctIds n.store.journal) (hb : b ∈ Store.writtenBlocks n.store.journal)
    (hheight : b.height ≠ 0) :
    n.store.blocks.contains b.parent = true ∧
      (n.hasSeen b.parent = true → n.hasSeen b.id = true) := by
  obtain ⟨u, hu⟩ := hn.kept.live hids
  obtain ⟨state, hwritten⟩ := Store.mem_writtenBlocks.1 hb
  obtain ⟨sb, hsb⟩ : ∃ sb, n.store.blocks.find? b.id = some sb := by
    rw [hn.sound.journaled.blocks_eq]
    exact Table.contains_iff.1 (Store.contains_of_mem_journal hwritten)
  obtain ⟨e, he, -⟩ := hu.archive.of_find?_stored hsb
  have hheader : e.tip.block.header = b.header :=
    hids _ _ _ _ (hn.sound.journaled.mem_journal (hu.archive.find?_stored he)) hwritten
      (hu.archive.wellFormed.id_eq he)
  have hparent : e.parent = b.parent := congrArg (fun h : Header => h.parent) hheader
  have hne : b.id ≠ u.root := by
    intro hroot
    obtain ⟨r, hr, rfl⟩ := hu.archive.root
    rw [← hroot, he, Option.some.injEq] at hr
    rw [← hr] at hzero
    exact hheight ((congrArg (fun h : Header => h.height.toNat) hheader).symm.trans hzero)
  obtain ⟨p, hp, -⟩ := hu.archive.exists_parent he hne
  rw [hparent] at hp
  refine ⟨Table.contains_iff.2 ⟨_, hu.archive.find?_stored hp⟩, fun hseen => ?_⟩
  obtain ⟨f, hf⟩ := ChainTree.contains_iff.1 hseen
  have habove : n.forkChoice.tree.root ∈ u.lineage b.id := by
    rw [hu.archive.wellFormed.lineage_of_ne_root he hne, hparent]
    exact List.mem_cons_of_mem _ (hu.root_mem_lineage hf)
  obtain ⟨g, hg⟩ := hu.above habove
  exact ChainTree.contains_iff.2 ⟨g, hg⟩

/-- An import leaves the node as it is.  It answers that the block is in the tree or stale, unless
nothing can be read. -/
structure Ignores (n : Node) (b : Block) (res : ImportAnswer × Node) : Prop where
  unchanged : res.2 = n
  answer : n.store.faults.reads = false →
    res.1 = .ok (.ignored (if n.hasSeen b.id then .alreadyKnown else .stale))

/-- **A block that was taken is ignored.** -/
theorem Taken.ignores_importOne (h : n.Taken b) (hn : n.Kept R params genesis)
    (hzero : genesis.height = 0) (hids : Store.DistinctIds n.store.journal)
    (hlost : n.store.faults.lostBlocks = []) : n.Ignores b (n.importOne b) := by
  cases hseen : n.hasSeen b.id with
  | true =>
    rw [importOne, if_pos hseen]
    exact ⟨rfl, fun _ => by rw [hseen]; rfl⟩
  | false =>
    obtain ⟨-, -, -, hheight, -⟩ := checkShape_eq_ok_iff.1 h.shape
    obtain ⟨hstored, habove⟩ := hn.parent_of_written hzero hids h.written hheight
    have hnone : n.forkChoice.tree.find? b.parent = none := by
      rw [ChainTree.find?_eq_none_iff, ← Bool.not_eq_true]
      intro hin
      rw [habove hin] at hseen
      cases hseen
    have hclean : n.invalid.contains b.id = false := decide_eq_false h.clean
    obtain ⟨sb, hsb⟩ := Table.contains_iff.1 hstored
    simp only [importOne, hseen, hclean, h.shape, hnone, Bool.false_eq_true, if_false,
      importUnknownParent, Store.getBlock, Store.read, hlost, List.not_mem_nil, hsb, Option.map_some]
    cases hreads : n.store.faults.reads with
    | true =>
      simp only [if_true]
      split <;> exact ⟨rfl, fun hfree => by rw [hreads] at hfree; cases hfree⟩
    | false =>
      simp only [Bool.false_eq_true, if_false, ite_self]
      exact ⟨rfl, fun _ => by rw [hseen]; rfl⟩

theorem Taken.not_accepted (h : n.Taken b) (hn : n.Kept R params genesis)
    (hzero : genesis.height = 0) (hids : Store.DistinctIds n.store.journal) (o : Outcome) :
    (n.importOne b).1 ≠ .ok (.accepted o) := by
  rcases n.importOne_cases b with ⟨-, hnot⟩ | ⟨below, -, hnew, -, hbelow, -, -⟩
  · exact hnot o
  obtain ⟨-, -, -, hheight, -⟩ := checkShape_eq_ok_iff.1 h.shape
  obtain ⟨-, habove⟩ := hn.parent_of_written hzero hids h.written hheight
  have hin := habove (ChainTree.contains_iff.2 ⟨below, hbelow⟩)
  rw [hasSeen, ChainTree.find?_eq_none_iff.1 hnew] at hin
  cases hin

/-! ### How a block is taken -/

/-- **A block that is accepted when it is handed in, or joins the tree, was taken.**  It may be in
the tree no more, if the canonical tip moved to another branch on that occasion. -/
theorem taken_of_importOne (h : (∃ o, (n.importOne b).1 = .ok (.accepted o)) ∨
      n.hasSeen b.id = false ∧ (n.importOne b).2.hasSeen b.id = true) :
    (n.importOne b).2.Taken b := by
  -- an import that leaves the node as it is was accepted
  have hmoves : ∀ {answer}, n.importOne b = (answer, n) → ∃ o, answer = .ok (.accepted o) := by
    intro answer heq
    rw [heq] at h
    refine h.resolve_right fun ⟨hunseen, hseen⟩ => ?_
    rw [hunseen] at hseen
    cases hseen
  have hclean : b.id ∉ n.invalid.ids := by
    intro hin
    cases hseen : n.hasSeen b.id with
    | true =>
      obtain ⟨o, ho⟩ := hmoves (by rw [importOne, if_pos hseen])
      cases ho
    | false =>
      have hinvalid : n.invalid.contains b.id = true := decide_eq_true hin
      have himport : n.importOne b = (.ok (.rejected .knownInvalid), n) := by
        simp only [importOne, hseen, hinvalid, Bool.false_eq_true, if_false, if_true]
      obtain ⟨o, ho⟩ := hmoves himport
      cases ho
  rcases n.importOne_cases b with ⟨hsame, hnot⟩ | ⟨below, tip, -, hshape, -, hvalid, heq⟩
  · rcases h with ⟨o, ho⟩ | ⟨hunseen, hseen⟩
    · exact absurd ho (hnot o)
    · rw [hasSeen, hsame.forkChoice, ← hasSeen, hunseen] at hseen
      cases hseen
  · have hafter : (n.importOne b).2 = (n.submitTip tip).2 := by
      rw [heq]
      rcases n.submitTip tip with ⟨_ | outcome, n'⟩ <;> rfl
    have hchain := sameChain_submitTip n tip
    refine ⟨?_, ?_, ?_⟩
    · rw [hafter, hchain.params, params_offer]
      exact hshape
    · rcases written_offer_or n tip with ⟨e, hoffer⟩ | hwritten
      · obtain ⟨o, ho⟩ := hmoves (by rw [heq, submitTip_eq, hoffer])
        cases ho
      · rw [hafter, hchain.store, ← block_eq_of_validateBlock hvalid]
        exact hwritten
    · rw [hafter, (sameMemory_submitTip n tip).invalid]
      exact hclean

/-- **A block that was taken is not remembered as invalid later.**  A header is found bad only while
the block is not in the tree and its parent is; this cannot be the header of a block that was
written. -/
theorem Taken.importOne (h : n.Taken b) (hR : Linking params.consensus R)
    (hn : n.Kept R params genesis) (horder : n.Orderly) (hzero : genesis.height = 0)
    (hids : Store.DistinctIds n.store.journal) (hheader : c.id = b.id → c.header = b.header) :
    (n.importOne c).2.Taken b := by
  have hrun := (admits_placed hR).importOne hn c
  refine ⟨by rw [hrun.params_eq]; exact h.shape, hrun.writtenBlocks_subset h.written, fun hin => ?_⟩
  cases hseen : n.hasSeen c.id with
  | true =>
    rw [Node.importOne, if_pos hseen] at hin
    exact h.clean hin
  | false =>
    rcases (handled_importOne n c).of_mem_invalid horder hin with hold | ⟨hid, hbad⟩
    · exact h.clean hold
    · obtain ⟨-, -, -, hheight, -⟩ := checkShape_eq_ok_iff.1 h.shape
      obtain ⟨-, habove⟩ := hn.parent_of_written hzero hids h.written hheight
      have hparent : c.parent = b.parent :=
        congrArg (fun h : Header => h.parent) (hheader hid.symm)
      rw [← hid, habove (hparent ▸ hbad.hasSeen_parent)] at hseen
      cases hseen

end Node

end LedgerChain
