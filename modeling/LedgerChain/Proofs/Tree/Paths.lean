import LedgerChain.Proofs.Tree.Lineage

/-!
# Paths down a tree

A path follows the parent links from a block down to another one (`ChainTree.Path`); it lists the
blocks on the way, the first one included and the last one not.  A block *descends* from those that
there is a path to.

Nothing here speaks of heights or of how lineages are computed.  That lineages are the paths down to
the root is a theorem about well-formed trees: a path is what a lineage has before the lineage of the
block that it leads to (`WellFormed.path_iff`), so there is one path at most between two blocks
(`Path.unique`), and descent is membership in a lineage (`WellFormed.descends_iff`).
-/

namespace LedgerChain

namespace ChainTree

/-- The blocks on the way from a block down to another one, without the last one. -/
inductive Path (t : ChainTree) : BlockId → List BlockId → BlockId → Prop
  | stay (a : BlockId) : Path t a [] a
  | down {a parent b : BlockId} {path : List BlockId} (h : t.parent? a = some parent)
      (rest : Path t parent path b) : Path t a (a :: path) b

/-- The first block is the second one or lies above it. -/
def Descends (t : ChainTree) (a b : BlockId) : Prop := ∃ path, t.Path a path b

variable {t : ChainTree} {a b c : BlockId} {path path' : List BlockId} {e : TreeEntry}

theorem parent?_eq (he : t.find? a = some e) (hne : a ≠ t.root) : t.parent? a = some e.parent := by
  rw [parent?, if_neg hne, he, Option.map_some]

theorem Descends.refl (t : ChainTree) (a : BlockId) : t.Descends a a := ⟨[], .stay a⟩

theorem Path.append (hab : t.Path a path b) (hbc : t.Path b path' c) :
    t.Path a (path ++ path') c := by
  induction hab with
  | stay => exact hbc
  | down hparent _ ih => exact .down hparent (ih hbc)

variable [Crypto] [Sums]

theorem WellFormed.of_parent? (h : t.WellFormed) (hparent : t.parent? a = some b) :
    t.lineage a = a :: t.lineage b ∧ ∃ e, t.find? b = some e := by
  unfold parent? at hparent
  split at hparent
  · cases hparent
  · rename_i hne
    obtain ⟨e, he, rfl⟩ := Option.map_eq_some_iff.1 hparent
    obtain ⟨p, hp, -⟩ := h.link he hne
    exact ⟨h.lineage_of_ne_root he hne, p, hp⟩

theorem WellFormed.eq_of_lineage_eq_cons (h : t.WellFormed) (hline : t.lineage a = b :: path) :
    a = b ∧ ∃ e, t.find? a = some e := by
  obtain ⟨-, f, -, hf⟩ := h.find?_of_mem_lineage (hline ▸ List.mem_cons_self)
  rw [h.lineage_eq_cons hf] at hline
  exact ⟨(List.cons.inj hline).1, f, hf⟩

/-- **A path is what a lineage has before the lineage of a block on it.** -/
theorem WellFormed.path_iff (h : t.WellFormed) (hb : t.find? b = some e) :
    t.Path a path b ↔ t.lineage a = path ++ t.lineage b := by
  constructor
  · intro hpath
    induction hpath with
    | stay => rfl
    | down hparent _ ih => rw [(h.of_parent? hparent).1, ih hb, List.cons_append]
  · intro hline
    induction path generalizing a with
    | nil =>
      rw [List.nil_append, h.lineage_eq_cons hb] at hline
      obtain ⟨rfl, -⟩ := h.eq_of_lineage_eq_cons hline
      exact .stay a
    | cons x rest ih =>
      obtain ⟨rfl, f, hf⟩ := h.eq_of_lineage_eq_cons hline
      by_cases hroot : a = t.root
      · rw [hroot, h.lineage_root, h.lineage_eq_cons hb] at hline
        simp at hline
      · rw [h.lineage_of_ne_root hf hroot, List.cons_append] at hline
        exact .down (parent?_eq hf hroot) (ih (List.cons.inj hline).2)

theorem Path.unique (h : t.WellFormed) (hb : t.find? b = some e) (hpath : t.Path a path b)
    (hpath' : t.Path a path' b) : path' = path := by
  rw [h.path_iff hb] at hpath hpath'
  exact List.append_cancel_right (hpath'.symm.trans hpath)

theorem Path.nodup (h : t.WellFormed) (hb : t.find? b = some e) (hpath : t.Path a path b) :
    path.Nodup := by
  have hnodup := h.nodup_lineage a
  rw [(h.path_iff hb).1 hpath] at hnodup
  exact hnodup.of_append_left

theorem Path.find?_end (h : t.WellFormed) (ha : t.find? a = some e) (hpath : t.Path a path b) :
    ∃ f, t.find? b = some f := by
  induction hpath generalizing e with
  | stay => exact ⟨e, ha⟩
  | down hparent _ ih =>
    obtain ⟨-, p, hp⟩ := h.of_parent? hparent
    exact ih hp

/-- **A block descends from the blocks on its lineage.** -/
theorem WellFormed.descends_iff (h : t.WellFormed) (hb : t.find? b = some e) :
    t.Descends a b ↔ b ∈ t.lineage a := by
  constructor
  · rintro ⟨path, hpath⟩
    rw [(h.path_iff hb).1 hpath]
    exact List.mem_append_right _ (h.self_mem_lineage hb)
  · intro hmem
    obtain ⟨-, f, -, hf⟩ := h.find?_of_mem_lineage hmem
    obtain ⟨path, hline⟩ := h.lineage_suffix hf hmem
    exact ⟨path, (h.path_iff hb).2 hline.symm⟩

theorem Descends.mem_lineage (h : t.WellFormed) (ha : t.find? a = some e)
    (hab : t.Descends a b) : b ∈ t.lineage a := by
  obtain ⟨path, hpath⟩ := hab
  obtain ⟨f, hf⟩ := hpath.find?_end h ha
  exact (h.descends_iff hf).1 ⟨path, hpath⟩

theorem Descends.antisymm (h : t.WellFormed) (ha : t.find? a = some e) (hab : t.Descends a b)
    (hba : t.Descends b a) : a = b :=
  h.mem_lineage_antisymm ((h.descends_iff ha).1 hba) (hab.mem_lineage h ha)

end ChainTree

end LedgerChain
