import LedgerChain.Proofs.Node.Memory

/-!
# Blocks that other nodes have to take

Stores over the same genesis agree on what they both hold, if hashes tell their blocks apart
(`Archive.agree`): a block determines its parent, and the two determine the state.

**A block that is valid on its parent is not rejected** by a node that has the parent, if its shape
is right and the node remembers condemned blocks only (`Node.not_rejected_importBlock`).  The parent
may have left the tree, and the block may be known already.
-/

namespace LedgerChain

variable [Crypto] {bs : List Block}

namespace Archive

variable {rule : SealRule} {genesis : ChainTip} {s s' : Store} {u u' : ChainTree} {id : BlockId}
  {e e' : TreeEntry}

/-- **Archives of valid blocks over the same genesis agree**, by induction from genesis upwards. -/
theorem agree (h : Archive (Valid (.ofRule rule)) genesis s u)
    (h' : Archive (Valid (.ofRule rule)) genesis s' u') (hclear : Block.Unmistakable bs)
    (hbs : ∀ id e, u.find? id = some e → e.tip.block ∈ bs)
    (hbs' : ∀ id e, u'.find? id = some e → e.tip.block ∈ bs) (he : u.find? id = some e)
    (he' : u'.find? id = some e') :
    e.tip.block = e'.tip.block ∧ e.tip.state = e'.tip.state := by
  -- from the root on: equal parents and equal blocks have equal states
  refine h.wellFormed.induction (P := fun b => ∀ e e', u.find? b = some e → u'.find? b = some e' →
    e.tip.block = e'.tip.block ∧ e.tip.state = e'.tip.state) (fun e e' he he' => ?_)
    (fun b f hf hne ih => ?_) he e e' he he'
  · obtain ⟨r, hr, htip⟩ := h.root
    obtain ⟨r', hr', htip'⟩ := h'.root
    rw [hr, Option.some.injEq] at he
    rw [h.root_eq, ← h'.root_eq, hr', Option.some.injEq] at he'
    rw [← he, ← he', htip, htip']
    exact ⟨rfl, rfl⟩
  · intro e e' he he'
    rw [hf, Option.some.injEq] at he
    subst he
    have hne' : b ≠ u'.root := by rwa [h'.root_eq, ← h.root_eq]
    obtain ⟨p, hp, hvalid⟩ := h.exists_parent hf hne
    obtain ⟨p', hp', hvalid'⟩ := h'.exists_parent he' hne'
    have hid : f.tip.block.id = e'.tip.block.id :=
      (h.wellFormed.id_eq hf).trans (h'.wellFormed.id_eq he').symm
    obtain ⟨hheader, hbody⟩ := hclear _ (hbs b f hf) _ (hbs' b e' he')
    have hblock : f.tip.block = e'.tip.block := by
      rw [Block.mk.injEq]
      refine ⟨hheader hid, hbody ?_⟩
      obtain ⟨-, -, -, hext, -⟩ := validateBlock_eq_ok_iff.1 hvalid.validated
      obtain ⟨-, -, -, hext', -⟩ := validateBlock_eq_ok_iff.1 hvalid'.validated
      rw [hext, hext', hheader hid]
    have hparents : e'.parent = f.parent := by
      rw [TreeEntry.parent, TreeEntry.parent, ChainTip.parent, ChainTip.parent, hblock]
    rw [hparents] at hp'
    obtain ⟨hbelow, hstate⟩ := ih p p' hp hp'
    have hsame := hvalid.validated
    rw [validateBlock_congr hbelow hstate, hblock, hvalid'.validated, Except.ok.injEq] at hsame
    exact ⟨hblock, congrArg ChainTip.state hsame.symm⟩

end Archive

namespace Node

variable {R : ChainTip → ChainTip → Prop} {rule : SealRule} {params params' : Params}
  {genesis tip : ChainTip} {n n' : Node} {id : BlockId} {b : Block} {sb sb' : StoredBlock}
  {cause : ImportError}

/-- **Nodes over the same genesis agree on what they have stored.** -/
theorem Kept.agree (hn : n.Kept (Valid (.ofRule rule)) params genesis)
    (hn' : n'.Kept (Valid (.ofRule rule)) params' genesis) (hclear : Block.Unmistakable bs)
    (hbs : Store.writtenBlocks n.store.journal ⊆ bs)
    (hbs' : Store.writtenBlocks n'.store.journal ⊆ bs) (hsb : n.store.blocks.find? id = some sb)
    (hsb' : n'.store.blocks.find? id = some sb') : sb = sb' := by
  obtain ⟨u, hu⟩ := hn.kept.live (hclear.distinctIds hbs)
  obtain ⟨u', hu'⟩ := hn'.kept.live (hclear.distinctIds hbs')
  obtain ⟨e, he, hblock, hstate⟩ := hu.archive.of_find?_stored hsb
  obtain ⟨e', he', hblock', hstate'⟩ := hu'.archive.of_find?_stored hsb'
  obtain ⟨hsame, hsame'⟩ := hu.archive.agree hu'.archive hclear
    (fun _ _ hf => hbs (Store.mem_writtenBlocks.2
      ⟨_, hn.sound.journaled.mem_journal (hu.archive.find?_stored hf)⟩))
    (fun _ _ hf => hbs' (Store.mem_writtenBlocks.2
      ⟨_, hn'.sound.journaled.mem_journal (hu'.archive.find?_stored hf)⟩)) he he'
  rw [StoredBlock.mk.injEq, ← hblock, ← hstate, ← hblock', ← hstate']
  exact ⟨hsame, hsame'⟩

/-- The block is in the tree, or is found in the store. -/
def Knows (n : Node) (id : BlockId) : Prop :=
  n.hasSeen id = true ∨ ∃ b, n.store.getBlock id = .ok (some b)

theorem Knows.exists_stored (h : n.Knows id) (hn : n.Kept R params genesis)
    (hids : Store.DistinctIds n.store.journal) : ∃ sb, n.store.blocks.find? id = some sb := by
  rcases h with hseen | ⟨b, hb⟩
  · obtain ⟨e, he⟩ := ChainTree.contains_iff.1 hseen
    exact ⟨_, hn.find?_stored hids he⟩
  · exact Store.find?_of_getBlock hb

theorem not_contains_invalid (hcondemned : ∀ id ∈ n.invalid.ids, n.Condemned bs id)
    (hclear : Block.Unmistakable bs) (hb : b ∈ bs)
    (hparent : n.store.blocks.find? b.parent = some sb)
    (hvalid : validateBlock n.engine b ⟨sb.block, sb.state, 0⟩ = .ok tip) :
    n.invalid.contains b.id = false := by
  rw [Bool.eq_false_iff]
  intro hold
  obtain ⟨b₀, parent, cause, hb₀, hid, hparent₀, herror, hinvalid⟩ :=
    hcondemned b.id (of_decide_eq_true hold)
  have hheader : b.header = b₀.header := (hclear b hb b₀ hb₀).1 hid.symm
  have hsame : b.parent = b₀.parent := by rw [Block.parent, Block.parent, hheader]
  rw [← hsame, hparent, Option.some.injEq] at hparent₀
  subst hparent₀
  obtain ⟨cause', hbad⟩ :=
    exists_error_of_isBlockInvalid herror hinvalid hheader (hclear b hb b₀ hb₀).2
  rw [hvalid] at hbad
  cases hbad

section Imports

variable (hn : n.Kept R params genesis) (hcondemned : ∀ id ∈ n.invalid.ids, n.Condemned bs id)
  (hids : Store.DistinctIds n.store.journal) (hclear : Block.Unmistakable bs) (hb : b ∈ bs)
  (hshape : b.checkShape n.params.consensus = .ok ()) (hknown : n.Knows b.parent)
  (hparent : n.store.blocks.find? b.parent = some sb)
  (hvalid : validateBlock n.engine b ⟨sb.block, sb.state, 0⟩ = .ok tip)

include hn hcondemned hids hclear hb hshape hknown hparent hvalid

theorem not_rejected_importOne : (n.importOne b).1 ≠ .ok (.rejected cause) := by
  have hfresh := not_contains_invalid hcondemned hclear hb hparent hvalid
  cases hseen : n.hasSeen b.id with
  | true =>
    rw [importOne, if_pos hseen]
    exact fun heq => by cases heq
  | false =>
    simp only [importOne, hseen, hfresh, hshape, Bool.false_eq_true, if_false]
    cases hbelow : n.forkChoice.tree.find? b.parent with
    | none =>
      -- the parent has left the tree, so the block is stale
      obtain ⟨b', hfound⟩ := hknown.resolve_left fun hin => by
        rw [hasSeen, ChainTree.find?_eq_none_iff.1 hbelow] at hin
        cases hin
      simp only [importUnknownParent, hfound]
      split <;> exact fun heq => by cases heq
    | some below =>
      have hstored := hn.find?_stored hids hbelow
      rw [hparent, Option.some.injEq] at hstored
      rw [validateBlock_congr (q := below.tip) (by rw [hstored]) (by rw [hstored])] at hvalid
      simp only [importOnParent, hvalid]
      rcases n.submitTip tip with ⟨e | outcome, n'⟩
      · exact fun heq => by cases heq
      · simp only [ImportResult.ofOutcome]
        split <;> exact fun heq => by cases heq

/-- **A block that is valid on its parent is not rejected.** -/
theorem not_rejected_importBlock : (n.importBlock b).1 ≠ .ok (.rejected cause) := by
  have hone : (n.importOne b).1 ≠ .ok (.rejected cause) :=
    not_rejected_importOne hn hcondemned hids hclear hb hshape hknown hparent hvalid
  rw [importBlock]
  rcases hres : n.importOne b with ⟨e | result, n₁⟩ <;> rw [hres] at hone
  · exact fun heq => by cases heq
  · simp only
    split
    · exact hone
    · rcases n₁.releaseOrphans b.id with ⟨e | u, n₂⟩
      · exact fun heq => by cases heq
      · exact hone

end Imports

end Node

end LedgerChain
