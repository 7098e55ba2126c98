import LedgerChain.Proofs.Tree.Lineage
import LedgerChain.Tree.Reorg

/-!
# Ways between blocks

The lineages of two blocks of a well-formed tree are one from their highest shared block on.  The
way between the blocks goes down the rest of the one and up the rest of the other
(`WellFormed.exists_reorg`), so nothing is taken off that is put on again.
-/

namespace LedgerChain

namespace ChainTree

variable [Crypto] [Sums] {t : ChainTree} {a b : BlockId} {e f : TreeEntry}

/-- A way leads from one block to another: both lineages are one from the pivot on, and no block
is both taken off and put on. -/
structure Leads (t : ChainTree) (way : Reorg) (a b : BlockId) : Prop where
  lineage_start : t.lineage a = way.down ++ t.lineage way.pivot
  lineage_dest : t.lineage b = way.up.reverse ++ t.lineage way.pivot
  pivot_mem : way.pivot ∈ t.lineage a
  apart : ∀ x ∈ way.down, x ∉ t.lineage b

/-- **There is a way between any two blocks.** -/
theorem WellFormed.exists_reorg (h : t.WellFormed) (ha : t.find? a = some e)
    (hb : t.find? b = some f) : ∃ way, t.reorg? a b = some way ∧ t.Leads way a b := by
  have hshared : ((t.lineage a).find? fun x => x ∈ t.lineage b).isSome = true := by
    rw [List.find?_isSome]
    exact ⟨t.root, h.root_mem_lineage ha, decide_eq_true (h.root_mem_lineage hb)⟩
  obtain ⟨pivot, hpivot⟩ := Option.isSome_iff_exists.1 hshared
  refine ⟨⟨(t.lineage a).takeWhile fun x => x ≠ pivot, pivot,
    ((t.lineage b).takeWhile fun x => x ≠ pivot).reverse⟩, by simp only [reorg?, hpivot], ?_⟩
  obtain ⟨hmem, above, below, hsplit, hfirst⟩ := List.find?_eq_some_iff_append.1 hpivot
  have hpa : pivot ∈ t.lineage a := List.mem_of_find?_eq_some hpivot
  refine ⟨(h.takeWhile_append_lineage hpa).symm, ?_, hpa, ?_⟩
  · rw [List.reverse_reverse]
    exact (h.takeWhile_append_lineage (of_decide_eq_true hmem)).symm
  · -- what comes before the first shared block is not shared
    intro x hx hxb
    rw [hsplit, takeWhile_ne_append_cons (hsplit ▸ h.nodup_lineage a)] at hx
    simpa [hxb] using hfirst x hx

variable {way : Reorg}

omit [Crypto] [Sums] in
theorem Leads.mem_of_mem_down (hw : t.Leads way a b) {x : BlockId} (hx : x ∈ way.down) :
    x ∈ t.lineage a := by
  rw [hw.lineage_start]
  exact List.mem_append_left _ hx

omit [Crypto] [Sums] in
theorem Leads.mem_of_mem_up (hw : t.Leads way a b) {x : BlockId} (hx : x ∈ way.up) :
    x ∈ t.lineage b := by
  rw [hw.lineage_dest]
  exact List.mem_append_left _ (List.mem_reverse.2 hx)

end ChainTree

end LedgerChain
