import LedgerChain.Proofs.Tree.Lineage
import Mathlib.Data.List.Perm.Subperm

/-!
# What lies above a block

In a well-formed tree the blocks above `a`, collected layer by layer, are the blocks other than `a`
with `a` on their lineage (`mem_descendants_iff`): no layer is missed, since a lineage is no longer
than the tree has blocks.
-/

namespace LedgerChain

namespace ChainTree

variable [Crypto] [Sums] {t : ChainTree} {id a b c : BlockId} {e : TreeEntry}

theorem WellFormed.mem_children_iff (h : t.WellFormed) (ha : t.find? a = some e) :
    c ∈ t.children a ↔ ∃ f, t.find? c = some f ∧ c ≠ t.root ∧ f.parent = a := by
  unfold children
  rw [ha]
  constructor
  · intro hc
    obtain ⟨hroot, f, hf, hfa⟩ := h.child ha hc
    exact ⟨f, hf, hroot, hfa⟩
  · rintro ⟨f, hf, hroot, rfl⟩
    obtain ⟨p, hp, hmem, -⟩ := h.link hf hroot
    rw [ha] at hp
    cases hp
    exact hmem

theorem WellFormed.mem_lineage_of_mem_children (h : t.WellFormed) (ha : t.find? a = some e)
    (hc : c ∈ t.children a) : a ∈ t.lineage c ∧ a ≠ c := by
  obtain ⟨f, hf, hroot, hfa⟩ := (h.mem_children_iff ha).1 hc
  have hmem : a ∈ t.lineage c := by
    rw [h.lineage_of_ne_root hf hroot, hfa]
    exact List.mem_cons_of_mem _ (h.self_mem_lineage ha)
  refine ⟨hmem, ?_⟩
  rintro rfl
  obtain ⟨p, hp, -, hh, -⟩ := h.link hf hroot
  rw [hfa, hf] at hp
  cases hp
  omega

theorem WellFormed.exists_child_on_lineage (h : t.WellFormed) (hab : a ∈ t.lineage b)
    (hne : a ≠ b) : ∃ c ∈ t.children a, c ∈ t.lineage b := by
  obtain ⟨ea, eb, hea, heb⟩ := h.find?_of_mem_lineage hab
  refine h.induction (P := fun b => a ∈ t.lineage b → a ≠ b → ∃ c ∈ t.children a,
    c ∈ t.lineage b) ?_ (fun b f hf hroot ih => ?_) heb hab hne
  · intro hmem hne
    rw [h.lineage_root, List.mem_singleton] at hmem
    exact absurd hmem hne
  · intro hmem hne
    rw [h.lineage_of_ne_root hf hroot] at hmem ⊢
    by_cases hap : a = f.parent
    · exact ⟨b, (h.mem_children_iff hea).2 ⟨f, hf, hroot, hap.symm⟩, List.mem_cons_self⟩
    · obtain ⟨c, hc, hmem⟩ := ih ((List.mem_cons.1 hmem).resolve_left hne) hap
      exact ⟨c, hc, List.mem_cons_of_mem _ hmem⟩

/-- The blocks between the root and a block, both inclusive, are as many as their heights say. -/
theorem WellFormed.length_lineage (h : t.WellFormed) {r : TreeEntry}
    (hr : t.find? t.root = some r) (he : t.find? id = some e) :
    r.height + (t.lineage id).length = e.height + 1 := by
  refine h.induction (P := fun b => ∀ e, t.find? b = some e →
    r.height + (t.lineage b).length = e.height + 1) ?_ (fun b f hf hroot ih => ?_) he e he
  · intro e he
    rw [hr] at he
    cases he
    rw [h.lineage_root]
    rfl
  · intro e he
    rw [hf] at he
    cases he
    obtain ⟨p, hp, -, hh, -⟩ := h.link hf hroot
    have := ih p hp
    rw [h.lineage_of_ne_root hf hroot, List.length_cons]
    omega

theorem WellFormed.length_lineage_le_size (h : t.WellFormed) (id : BlockId) :
    (t.lineage id).length ≤ t.size := by
  have hsub : t.lineage id ⊆ t.entries.keys := by
    intro b hb
    obtain ⟨f, -, hf, -⟩ := h.find?_of_mem_lineage hb
    exact Table.mem_keys_iff.2 (contains_iff.2 ⟨f, hf⟩)
  have hle := (List.subperm_of_subset (h.nodup_lineage id) hsub).length_le
  rwa [Table.keys, List.length_map] at hle

theorem WellFormed.mem_lineage_of_mem_layersAbove (h : t.WellFormed) {layers : Nat}
    {level : List BlockId} (hlevel : ∀ a ∈ level, ∃ e, t.find? a = some e)
    (hb : b ∈ t.layersAbove layers level) : ∃ a ∈ level, a ∈ t.lineage b ∧ a ≠ b := by
  induction layers generalizing level with
  | zero => cases hb
  | succ layers ih =>
    rw [layersAbove, List.mem_append] at hb
    rcases hb with hb | hb
    -- the first layer are the children, the others lie above it
    · obtain ⟨a, ha, hab⟩ := List.mem_flatMap.1 hb
      obtain ⟨e, he⟩ := hlevel a ha
      exact ⟨a, ha, h.mem_lineage_of_mem_children he hab⟩
    · have habove : ∀ c ∈ level.flatMap t.children, ∃ e, t.find? c = some e := by
        intro c hc
        obtain ⟨a, ha, hac⟩ := List.mem_flatMap.1 hc
        obtain ⟨e, he⟩ := hlevel a ha
        obtain ⟨f, hf, -⟩ := (h.mem_children_iff he).1 hac
        exact ⟨f, hf⟩
      obtain ⟨c, hc, hcb, hne⟩ := ih habove hb
      obtain ⟨a, ha, hac⟩ := List.mem_flatMap.1 hc
      obtain ⟨e, he⟩ := hlevel a ha
      have hca := (h.mem_lineage_of_mem_children he hac).1
      refine ⟨a, ha, h.mem_lineage_trans hca hcb, ?_⟩
      rintro rfl
      exact hne (h.mem_lineage_antisymm hcb hca)

/-- A block is collected if there are as many layers as it lies above one of the given ones. -/
theorem WellFormed.mem_layersAbove (h : t.WellFormed) {layers : Nat} {level : List BlockId}
    (ha : a ∈ level) (hab : a ∈ t.lineage b) (hne : a ≠ b) {ea eb : TreeEntry}
    (hea : t.find? a = some ea) (heb : t.find? b = some eb)
    (hle : eb.height ≤ ea.height + layers) : b ∈ t.layersAbove layers level := by
  induction layers generalizing level a ea with
  | zero =>
    have := h.height_lt_of_mem_lineage hea heb hab hne
    omega
  | succ layers ih =>
    obtain ⟨c, hc, hcb⟩ := h.exists_child_on_lineage hab hne
    have hcmem : c ∈ level.flatMap t.children := List.mem_flatMap.2 ⟨a, ha, hc⟩
    rw [layersAbove, List.mem_append]
    by_cases hcb' : c = b
    · exact Or.inl (hcb' ▸ hcmem)
    · obtain ⟨f, hf, hroot, hfa⟩ := (h.mem_children_iff hea).1 hc
      obtain ⟨p, hp, -, hh, -⟩ := h.link hf hroot
      rw [hfa, hea] at hp
      cases hp
      exact Or.inr (ih hcmem hcb hcb' hf (by omega))

/-- **The descendants of a block are the other blocks with it on their lineage.** -/
theorem WellFormed.mem_descendants_iff (h : t.WellFormed) (ha : t.find? a = some e) :
    b ∈ t.descendants a ↔ a ∈ t.lineage b ∧ a ≠ b := by
  unfold descendants
  constructor
  · intro hb
    have hlevel : ∀ c ∈ [a], ∃ e, t.find? c = some e := by
      intro c hc
      rw [List.mem_singleton.1 hc]
      exact ⟨e, ha⟩
    obtain ⟨c, hc, hcb⟩ := h.mem_lineage_of_mem_layersAbove hlevel hb
    rwa [List.mem_singleton.1 hc] at hcb
  · rintro ⟨hab, hne⟩
    obtain ⟨-, f, -, hf⟩ := h.find?_of_mem_lineage hab
    obtain ⟨r, hr⟩ := h.root_mem
    have hlen := h.length_lineage hr hf
    have hlen' := h.length_lineage hr ha
    have hsize := h.length_lineage_le_size b
    have hpos : 0 < (t.lineage a).length := List.length_pos_of_mem (h.self_mem_lineage ha)
    exact h.mem_layersAbove (List.mem_singleton_self a) hab hne ha hf (by omega)

theorem WellFormed.exists_tip_above (h : t.WellFormed) (he : t.find? id = some e) :
    ∃ l ∈ t.tips, id ∈ t.lineage l := by
  obtain ⟨r, hr⟩ := h.root_mem
  -- by the distance to the greatest height there can be
  induction hn : r.height + t.size - e.height using Nat.strong_induction_on generalizing id e with
  | h n ih =>
    cases hc : e.children with
    | nil => exact ⟨id, h.mem_tips.2 ⟨e, he, hc⟩, h.self_mem_lineage he⟩
    | cons c rest =>
      obtain ⟨hroot, f, hf, hfid⟩ := h.child he (hc ▸ List.mem_cons_self)
      obtain ⟨p, hp, -, hh, -⟩ := h.link hf hroot
      rw [hfid, he] at hp
      cases hp
      have hlen := h.length_lineage hr hf
      have hsize := h.length_lineage_le_size c
      obtain ⟨l, hl, hcl⟩ := ih _ (by omega) hf rfl
      refine ⟨l, hl, h.mem_lineage_trans ?_ hcl⟩
      rw [h.lineage_of_ne_root hf hroot, hfid]
      exact List.mem_cons_of_mem _ (h.self_mem_lineage he)

end ChainTree

end LedgerChain
