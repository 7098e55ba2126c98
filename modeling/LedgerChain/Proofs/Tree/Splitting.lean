import LedgerChain.Proofs.Tree.Paths
import LedgerChain.Proofs.Tree.Representation
import LedgerChain.Proofs.Tree.Search

/-!
# What finalizing makes of a tree

Finalizing a block sorts the blocks of a well-formed tree (`Splits`): those on the path from the
block down to the root become final, the block and what descends from it stays, with every entry as
it was, and all others are rejected, each once.  This is so in whatever order branches are listed and
taken down (`WellFormed.finalize_splits`).
-/

namespace LedgerChain

namespace ChainTree

/-- Finalizing a block splits the tree: what the report names, what is left, and that nothing happens
if the block is the root. -/
structure Splits (t : ChainTree) (b : BlockId) (report : FinalizeReport) (t' : ChainTree) :
    Prop where
  previous : report.previous = t.root
  /-- The blocks from the new root down to the old one, without the old one. -/
  finalized : t.Path b report.finalized t.root
  rejected_nodup : report.rejected.Nodup
  mem_rejected : ∀ x, x ∈ report.rejected ↔
    t.contains x = true ∧ x ≠ t.root ∧ x ∉ report.finalized ∧ ¬ t.Descends x b
  root : t'.root = b
  /-- What is left is kept as it was. -/
  find? : ∀ x e, t'.find? x = some e ↔ t.find? x = some e ∧ t.Descends x b
  mem_tips : ∀ x, x ∈ t'.tips ↔ x ∈ t.tips ∧ t.Descends x b
  tips_nodup : t'.tips.Nodup
  of_root : b = t.root → t' = t ∧ report.finalized = [] ∧ report.rejected = []

variable [Crypto] [Sums] {t t' : ChainTree} {b : BlockId} {path rejected : List BlockId} {e : TreeEntry}

theorem WellFormed.find?_iff_of_isUpperPart (h : t.WellFormed) (hb : t.find? b = some e)
    (hpart : t.IsUpperPart b t') (x : BlockId) (f : TreeEntry) :
    t'.find? x = some f ↔ t.find? x = some f ∧ t.Descends x b := by
  rw [h.descends_iff hb]
  constructor
  · intro hx
    exact (hpart.of_find? hx).symm
  · rintro ⟨hx, hup⟩
    exact (hpart.find?_eq hup).trans hx

theorem WellFormed.splits_root (h : t.WellFormed) : t.Splits t.root ⟨t.root, [], []⟩ t := by
  obtain ⟨r, hr⟩ := h.root_mem
  have hpart := h.isUpperPart_root
  refine ⟨rfl, .stay _, List.nodup_nil, fun x => ?_, rfl, h.find?_iff_of_isUpperPart hr hpart,
    fun x => ?_, h.tips_nodup, fun _ => ⟨rfl, rfl, rfl⟩⟩
  · -- everything descends from the root
    refine ⟨fun hx => absurd hx List.not_mem_nil, ?_⟩
    rintro ⟨hx, -, -, hnot⟩
    obtain ⟨f, hf⟩ := contains_iff.1 hx
    exact absurd ((h.descends_iff hr).2 (h.root_mem_lineage hf)) hnot
  · rw [h.descends_iff hr, ← hpart.mem_tips]

theorem WellFormed.splits_of_perm (h : t.WellFormed) (hb : t.find? b = some e)
    (hne : b ≠ t.root) (hpath : t.lineage b = path ++ [t.root]) (hpart : t.IsUpperPart b t')
    (hrejected : rejected.Perm (t.branchBlocks (t.branchesOff path (t.lineage b).tail))) :
    t.Splits b ⟨t.root, path, rejected⟩ t' := by
  obtain ⟨r, hr⟩ := h.root_mem
  refine ⟨rfl, (h.path_iff hr).2 (by rw [hpath, h.lineage_root]),
    hrejected.nodup_iff.2 ((h.apart_branchesOff hpath).nodup_branchBlocks h), fun x => ?_,
    hpart.root, h.find?_iff_of_isUpperPart hb hpart, fun x => ?_, hpart.tips_nodup,
    fun hroot => absurd hroot hne⟩
  · rw [hrejected.mem_iff, h.mem_branchBlocks_branchesOff_iff hpath, h.descends_iff hb,
      contains_iff, hpath, List.mem_append, List.mem_singleton, not_or]
    tauto
  · rw [h.descends_iff hb, hpart.mem_tips]

theorem WellFormed.finalizeInPlace_splits (h : t.WellFormed) (hb : t.find? b = some e)
    (order : Listing) :
    ∃ report t', (finalizeInPlace order b).on t = (.ok report, t') ∧ t.Splits b report t' := by
  obtain ⟨path, hpath, hlineage⟩ := h.path?_eq hb
  by_cases hroot : b = t.root
  · subst hroot
    exact ⟨_, _, on_finalizeInPlace_root hb hpath, h.splits_root⟩
  · have hrun : (finalizeInPlace order b).on t = _ := on_finalizeInPlace_of_ne hb hpath hroot
    rw [h.tail_append_root hb hlineage hroot] at hrun
    have hperm := order.perm (t.branchBlocks (t.branchesOff path (t.lineage b).tail))
    exact ⟨_, _, hrun, h.splits_of_perm hb hroot hlineage
      (h.isUpperPart_rootAt hb hlineage fun _ => hperm.mem_iff) hperm⟩

/-- **Finalizing a block of a well-formed tree splits the tree exactly.**

* `finalize` succeeds, and so does the procedure that changes the tree step by step.  Both report the
  old root, the path from the block down to it and all other blocks that do not descend from the
  block, each once; they leave the block and what descends from it, with every entry as it was.
* For the procedure this is so in whatever order the rejected blocks go.
* The blocks that go with a branch are those that a search from its first block finds, in whatever
  order children come; it ends after one round for each block. -/
theorem WellFormed.finalize_splits (h : t.WellFormed) (hb : t.contains b = true) :
    (∃ report t', t.finalize b = .ok (report, t') ∧ t.Splits b report t') ∧
    ∀ order : Listing,
      (∃ report t', (finalizeInPlace order b).on t = (.ok report, t') ∧ t.Splits b report t') ∧
      ∀ c, t.contains c = true → ∃ found,
        EndsIn (t.searchRound order) ((t.descendants c).length + 1) ⟨[c], []⟩ found ∧
          found.Perm (t.descendants c) ∧ ∀ x, x ∈ found ↔ t.Descends x c ∧ x ≠ c := by
  obtain ⟨e, he⟩ := contains_iff.1 hb
  refine ⟨?_, fun order => ⟨h.finalizeInPlace_splits he order, fun c hc => ?_⟩⟩
  · obtain ⟨report, t', hrun, hsplits⟩ := h.finalizeInPlace_splits he .asGiven
    rw [on_finalizeInPlace] at hrun
    cases hfin : t.finalize b with
    | error err =>
      rw [hfin] at hrun
      cases hrun
    | ok pair =>
      rw [hfin] at hrun
      cases hrun
      exact ⟨_, _, rfl, hsplits⟩
  · obtain ⟨f, hf⟩ := contains_iff.1 hc
    obtain ⟨found, hends, hperm⟩ := h.search_spec order hf
    refine ⟨found, hends, hperm, fun x => ?_⟩
    rw [hperm.mem_iff, h.mem_descendants_iff hf, h.descends_iff hf, ne_comm]

/-- The lower block of the longer branch of `sampleFork`. -/
def sampleLeft : ChainTip := sampleTip (sampleHeader 0) [1]

/-- The upper block of the longer branch of `sampleFork`. -/
def sampleTop : ChainTip := sampleTip sampleLeft.header []

/-- The only block of the shorter branch of `sampleFork`. -/
def sampleRight : ChainTip := sampleTip (sampleHeader 0) [2]

/-- A root with a branch of two blocks and one of a single block. -/
def sampleFork : ChainTree :=
  @grown _ .unbounded (sampleRoot 0) 0 [.attach sampleLeft, .attach sampleTop, .attach sampleRight]

omit [Crypto] [Sums] in
/-- Finalizing the upper block of the longer branch rejects the shorter one. -/
theorem finalize_splits_fork :
    letI := Crypto.transparent
    ∃ report t', sampleFork.finalize sampleTop.id = .ok (report, t') ∧
      sampleFork.Splits sampleTop.id report t' ∧
      report.finalized = [sampleTop.id, sampleLeft.id] ∧ report.rejected = [sampleRight.id] := by
  let _ := Crypto.transparent
  have hrun : (sampleFork.finalize sampleTop.id).toOption.map (fun result =>
      (result.1.finalized, result.1.rejected)) =
        some ([sampleTop.id, sampleLeft.id], [sampleRight.id]) := by
    decide +kernel
  obtain ⟨⟨report, t', hfin, hsplits⟩, -⟩ :=
    WellFormed.finalize_splits (wellFormed_grown (inRange_unbounded _ _ _)) (b := sampleTop.id)
      (t := sampleFork) (by decide +kernel)
  rw [hfin] at hrun
  obtain ⟨hfinal, hrejected⟩ := Prod.mk.inj (Option.some.inj hrun)
  exact ⟨report, t', hfin, hsplits, hfinal, hrejected⟩

end ChainTree

end LedgerChain
