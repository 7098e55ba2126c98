import LedgerChain.Proofs.Tree.Descendants
import LedgerChain.Proofs.Tree.Pruning

/-!
# Finalizing splits the tree

Moving the root of a well-formed tree up to one of its blocks keeps that block and what lies above
it, exactly as it was, and drops everything else (`WellFormed.finalize_spec`).  What is left is a
well-formed tree again, within the old one (`IsUpperPart.wellFormed`, `IsUpperPart.within`).
-/

namespace LedgerChain

namespace ChainTree

variable [Crypto] [Sums] {t t' : ChainTree} {id a b c x : BlockId} {e f : TreeEntry}

/-! ### The parts of the tree that go -/

theorem WellFormed.path?_eq (h : t.WellFormed) (he : t.find? id = some e) :
    ∃ path, t.path? id = some path ∧ t.lineage id = path ++ [t.root] := by
  have hroot := h.root_mem_lineage he
  have hline : t.lineageFrom t.size id = t.lineage id :=
    h.lineageFrom_eq_lineage he (Nat.le_succ_of_le (h.length_lineage_le_size id))
  refine ⟨(t.lineage id).takeWhile fun b => b ≠ t.root, ?_, ?_⟩
  · simp only [path?, hline, if_pos hroot]
  · rw [← h.lineage_root]
    exact (h.takeWhile_append_lineage hroot).symm

theorem WellFormed.mem_branchesOff_iff (h : t.WellFormed) {path : List BlockId}
    (hpath : t.lineage id = path ++ [t.root]) :
    c ∈ t.branchesOff path (t.lineage id).tail ↔
      ∃ f, t.find? c = some f ∧ c ≠ t.root ∧ c ∉ t.lineage id ∧
        f.parent ∈ (t.lineage id).tail := by
  simp only [branchesOff, List.mem_flatMap, List.mem_filter, decide_eq_true_eq]
  constructor
  · rintro ⟨b, hb, hc, hnot⟩
    obtain ⟨e, -, he, -⟩ := h.find?_of_mem_lineage (List.mem_of_mem_tail hb)
    obtain ⟨f, hf, hroot, rfl⟩ := (h.mem_children_iff he).1 hc
    refine ⟨f, hf, hroot, ?_, hb⟩
    rw [hpath, List.mem_append, List.mem_singleton]
    exact fun hmem => hmem.elim hnot hroot
  · rintro ⟨f, hf, hroot, hnot, hb⟩
    obtain ⟨e, -, he, -⟩ := h.find?_of_mem_lineage (List.mem_of_mem_tail hb)
    refine ⟨f.parent, hb, (h.mem_children_iff he).2 ⟨f, hf, hroot, rfl⟩, fun hmem => hnot ?_⟩
    rw [hpath]
    exact List.mem_append_left _ hmem

theorem WellFormed.exists_branch (h : t.WellFormed) {path : List BlockId}
    (hpath : t.lineage id = path ++ [t.root]) (hb : t.find? b = some f) (hoff : b ∉ t.lineage id)
    (hup : id ∉ t.lineage b) :
    ∃ c ∈ t.branchesOff path (t.lineage id).tail, c ∈ t.lineage b := by
  refine h.induction (P := fun b => b ∉ t.lineage id → id ∉ t.lineage b →
    ∃ c ∈ t.branchesOff path (t.lineage id).tail, c ∈ t.lineage b) ?_
    (fun b f hf hne ih => ?_) hb hoff hup
  · intro hoff
    rw [hpath] at hoff
    exact absurd (List.mem_append_right _ (List.mem_singleton_self _)) hoff
  · intro hoff hup
    obtain ⟨p, hp, -⟩ := h.link hf hne
    rw [h.lineage_of_ne_root hf hne, List.mem_cons, not_or] at hup
    -- a branch starts here, or below the parent already
    by_cases hpar : f.parent ∈ t.lineage id
    · have htail : f.parent ∈ (t.lineage id).tail := by
        refine h.mem_tail_lineage hpar ?_
        rintro rfl
        exact hup.2 (h.self_mem_lineage hp)
      exact ⟨b, (h.mem_branchesOff_iff hpath).2 ⟨f, hf, hne, hoff, htail⟩,
        h.self_mem_lineage hf⟩
    · obtain ⟨c, hc, hcp⟩ := ih hpar hup.2
      refine ⟨c, hc, ?_⟩
      rw [h.lineage_of_ne_root hf hne]
      exact List.mem_cons_of_mem _ hcp

theorem WellFormed.not_mem_of_branch (h : t.WellFormed) {path : List BlockId}
    (hpath : t.lineage id = path ++ [t.root])
    (hc : c ∈ t.branchesOff path (t.lineage id).tail) (hcb : c ∈ t.lineage b) :
    b ∉ t.lineage id ∧ id ∉ t.lineage b := by
  obtain ⟨f, hf, hroot, hoff, htail⟩ := (h.mem_branchesOff_iff hpath).1 hc
  have hup : id ∉ t.lineage c := by
    intro hmem
    rw [h.lineage_of_ne_root hf hroot, List.mem_cons] at hmem
    obtain ⟨-, g, -, hg⟩ := h.find?_of_mem_lineage (List.mem_of_mem_tail htail)
    rcases hmem with rfl | hmem
    · exact hoff (h.self_mem_lineage hg)
    · exact h.not_mem_lineage_of_mem_tail htail hmem
  refine ⟨fun hmem => hoff (h.mem_lineage_trans hcb hmem), fun hmem => ?_⟩
  rcases h.mem_lineage_total hcb hmem with h1 | h1
  · exact hoff h1
  · exact hup h1

/-- The blocks that go with a list of branches. -/
def branchBlocks (t : ChainTree) (branches : List BlockId) : List BlockId :=
  branches ++ branches.flatMap t.descendants

theorem WellFormed.mem_branchBlocks_iff (h : t.WellFormed) {branches : List BlockId}
    (hmem : ∀ c ∈ branches, ∃ f, t.find? c = some f) :
    b ∈ t.branchBlocks branches ↔ ∃ c ∈ branches, c ∈ t.lineage b := by
  rw [branchBlocks, List.mem_append, List.mem_flatMap]
  constructor
  · rintro (hb | ⟨c, hc, hb⟩)
    · obtain ⟨f, hf⟩ := hmem b hb
      exact ⟨b, hb, h.self_mem_lineage hf⟩
    · obtain ⟨f, hf⟩ := hmem c hc
      exact ⟨c, hc, ((h.mem_descendants_iff hf).1 hb).1⟩
  · rintro ⟨c, hc, hcb⟩
    by_cases heq : c = b
    · exact Or.inl (heq ▸ hc)
    · obtain ⟨f, hf⟩ := hmem c hc
      exact Or.inr ⟨c, hc, (h.mem_descendants_iff hf).2 ⟨hcb, heq⟩⟩

theorem WellFormed.mem_branchBlocks_branchesOff_iff (h : t.WellFormed) {path : List BlockId}
    (hpath : t.lineage id = path ++ [t.root]) :
    b ∈ t.branchBlocks (t.branchesOff path (t.lineage id).tail) ↔
      (∃ f, t.find? b = some f) ∧ b ∉ t.lineage id ∧ id ∉ t.lineage b := by
  rw [h.mem_branchBlocks_iff fun c hc => by
    obtain ⟨f, hf, -⟩ := (h.mem_branchesOff_iff hpath).1 hc
    exact ⟨f, hf⟩]
  constructor
  · rintro ⟨c, hc, hcb⟩
    obtain ⟨-, f, -, hf⟩ := h.find?_of_mem_lineage hcb
    exact ⟨⟨f, hf⟩, h.not_mem_of_branch hpath hc hcb⟩
  · rintro ⟨⟨f, hf⟩, hoff, hup⟩
    exact h.exists_branch hpath hf hoff hup

/-! ### What is left -/

/-- The part of a tree that consists of a block and what lies above it. -/
structure IsUpperPart (t : ChainTree) (id : BlockId) (t' : ChainTree) : Prop where
  root : t'.root = id
  find? : ∀ b, t'.find? b = if id ∈ t.lineage b then t.find? b else none
  mem_tips : ∀ b, b ∈ t'.tips ↔ b ∈ t.tips ∧ id ∈ t.lineage b
  tips_nodup : t'.tips.Nodup

theorem WellFormed.isUpperPart_root (h : t.WellFormed) : t.IsUpperPart t.root t where
  root := rfl
  find? b := by
    cases hb : t.find? b with
    | none => rw [ite_self]
    | some e => rw [if_pos (h.root_mem_lineage hb)]
  mem_tips b := by
    refine ⟨fun hb => ⟨hb, ?_⟩, And.left⟩
    obtain ⟨e, he, -⟩ := h.mem_tips.1 hb
    exact h.root_mem_lineage he
  tips_nodup := h.tips_nodup

/-- The tree after some blocks have gone one by one, and then those below a new root. -/
def pruneTo (t : ChainTree) (evicted below : List BlockId) : ChainTree :=
  below.foldl forget (evicted.foldl remove t)

/-- The tree with another root, which is a tip if nothing lies above it. -/
def rootAt (t : ChainTree) (id : BlockId) : ChainTree :=
  { t with root := id, tips := if (t.children id).isEmpty then t.tips.insert id else t.tips }

/-- Pruning leaves the first block of the lineage and what lies above it, whatever the order is in
which the blocks on branches go. -/
theorem WellFormed.isUpperPart_pruneTo (h : t.WellFormed) {path evicted : List BlockId}
    (he : t.find? id = some e) (hpath : t.lineage id = path ++ [t.root])
    (hevicted : ∀ b, b ∈ evicted ↔
      b ∈ t.branchBlocks (t.branchesOff path (t.lineage id).tail)) :
    t.IsUpperPart id { t.pruneTo evicted (t.lineage id).tail with root := id } := by
  have hup : ∀ b f, t.find? b = some f → b ≠ t.root → id ∈ t.lineage f.parent →
      id ∈ t.lineage b := by
    intro b f hf hne hpar
    rw [h.lineage_of_ne_root hf hne]
    exact List.mem_cons_of_mem _ hpar
  -- first the branches go, then the blocks below the new root
  obtain ⟨hp₁, hgone₁⟩ := (h.pruned_self fun b => id ∈ t.lineage b).foldl
    (fun cur x hp hx => hp.remove hup hx) (fun cur x b => find?_remove_eq_none cur x b)
    fun x hx => ((h.mem_branchBlocks_branchesOff_iff hpath).1 ((hevicted x).1 hx)).2.2
  obtain ⟨hp₂, hgone₂⟩ := hp₁.foldl (fun cur x hp hx => hp.forget hx)
    (fun cur x b => find?_forget_eq_none cur x b)
    fun x hx => h.not_mem_lineage_of_mem_tail hx
  have hfind : ∀ b, (t.pruneTo evicted (t.lineage id).tail).find? b =
      if id ∈ t.lineage b then t.find? b else none := by
    intro b
    split
    · exact hp₂.kept b ‹_›
    · rename_i hnot
      cases hf : (t.pruneTo evicted (t.lineage id).tail).find? b with
      | none => rfl
      | some f =>
        -- a block that is not kept was on a branch or on the way to the root
        obtain ⟨g, hg, -⟩ := hp₂.old b f hf
        by_cases hoff : b ∈ t.lineage id
        · have htail : b ∈ (t.lineage id).tail := by
            refine h.mem_tail_lineage hoff ?_
            rintro rfl
            exact hnot (h.self_mem_lineage he)
          exact hf.symm.trans (hgone₂ b (Or.inl htail))
        · have hbranch := (h.mem_branchBlocks_branchesOff_iff hpath).2 ⟨⟨g, hg⟩, hoff, hnot⟩
          exact hf.symm.trans (hgone₂ b (Or.inr (hgone₁ b (Or.inl ((hevicted b).2 hbranch)))))
  refine ⟨rfl, hfind, fun b => ⟨fun hb => ?_, fun ⟨hb, hk⟩ => (hp₂.kept_tips b hk).2 hb⟩,
    hp₂.tips_nodup⟩
  obtain ⟨f, hf⟩ := hp₂.tips_mem b hb
  have hfb := hfind b
  rw [pruneTo, hf] at hfb
  split at hfb
  · rename_i hk
    exact ⟨(hp₂.kept_tips b hk).1 hb, hk⟩
  · cases hfb

/-- The new root is listed as a tip only if it was one before. -/
theorem WellFormed.isUpperPart_rootAt (h : t.WellFormed) {path evicted : List BlockId}
    (he : t.find? id = some e) (hpath : t.lineage id = path ++ [t.root])
    (hevicted : ∀ b, b ∈ evicted ↔
      b ∈ t.branchBlocks (t.branchesOff path (t.lineage id).tail)) :
    t.IsUpperPart id ((t.pruneTo evicted (t.lineage id).tail).rootAt id) := by
  have hpart := h.isUpperPart_pruneTo he hpath hevicted
  refine ⟨rfl, hpart.find?, fun b => ?_, ?_⟩
  · rw [← hpart.mem_tips]
    dsimp only [rootAt]
    split
    · rename_i hempty
      rw [List.mem_insert_iff]
      refine or_iff_right_of_imp ?_
      rintro rfl
      -- the new root has no children, so it was a tip before
      have hself := h.self_mem_lineage he
      refine (hpart.mem_tips _).2 ⟨h.mem_tips.2 ⟨e, he, ?_⟩, hself⟩
      have hfind : (t.pruneTo evicted (t.lineage b).tail).find? b = some e := by
        have hb := hpart.find? b
        rwa [if_pos hself, he] at hb
      rw [List.isEmpty_iff, children, hfind] at hempty
      exact hempty
    · exact Iff.rfl
  · dsimp only [rootAt]
    split
    · exact hpart.tips_nodup.insert
    · exact hpart.tips_nodup

theorem WellFormed.tail_append_root (h : t.WellFormed) {path : List BlockId}
    (he : t.find? id = some e) (hpath : t.lineage id = path ++ [t.root]) (hne : id ≠ t.root) :
    path.tail ++ [t.root] = (t.lineage id).tail := by
  have hcons := h.lineage_eq_cons he
  rw [hpath] at hcons ⊢
  cases path with
  | nil =>
    rw [List.nil_append, List.cons.injEq] at hcons
    exact absurd hcons.1.symm hne
  | cons y ys => rfl

/-- **Finalizing a block of a well-formed tree succeeds, and leaves exactly the block and what lies
above it.** -/
theorem WellFormed.finalize_spec (h : t.WellFormed) (he : t.find? id = some e) :
    ∃ report t', t.finalize id = .ok (report, t') ∧ t.IsUpperPart id t' := by
  obtain ⟨path, hpath, hlineage⟩ := h.path?_eq he
  unfold finalize
  rw [contains_iff.2 ⟨e, he⟩, hpath]
  by_cases hid : id = t.root
  · subst hid
    exact ⟨_, t, if_pos rfl, h.isUpperPart_root⟩
  · simp only [Bool.not_true, Bool.false_eq_true, if_false, if_neg hid,
      h.tail_append_root he hlineage hid]
    exact ⟨_, _, rfl, h.isUpperPart_rootAt he hlineage fun b => Iff.rfl⟩

namespace IsUpperPart

omit [Crypto] [Sums] in
theorem of_find? (hp : t.IsUpperPart id t') (hb : t'.find? b = some f) :
    id ∈ t.lineage b ∧ t.find? b = some f := by
  rw [hp.find?] at hb
  split at hb
  · exact ⟨‹_›, hb⟩
  · cases hb

omit [Crypto] [Sums] in
theorem find?_eq (hp : t.IsUpperPart id t') (hb : id ∈ t.lineage b) : t'.find? b = t.find? b :=
  (hp.find? b).trans (if_pos hb)

omit [Crypto] [Sums] in
theorem within (hp : t.IsUpperPart id t') : t'.Within t :=
  fun _ f hf => ⟨f, (hp.of_find? hf).2, rfl⟩

theorem wellFormed (h : t.WellFormed) (hp : t.IsUpperPart id t') (he : t.find? id = some e) :
    t'.WellFormed where
  root_mem := by
    rw [hp.root]
    exact ⟨e, (hp.find?_eq (h.self_mem_lineage he)).trans he⟩
  id_eq hf := h.id_eq (hp.of_find? hf).2
  link {b f} hf hne := by
    obtain ⟨hup, hf⟩ := hp.of_find? hf
    rw [hp.root] at hne
    have hroot : b ≠ t.root := by
      rintro rfl
      rw [h.lineage_root] at hup
      exact hne (List.mem_singleton.1 hup).symm
    obtain ⟨p, hpar, hrest⟩ := h.link hf hroot
    rw [h.lineage_of_ne_root hf hroot] at hup
    have hup' := (List.mem_cons.1 hup).resolve_left (Ne.symm hne)
    exact ⟨p, (hp.find?_eq hup').trans hpar, hrest⟩
  child {b f c} hf hc := by
    obtain ⟨hup, hf⟩ := hp.of_find? hf
    obtain ⟨hroot, g, hg, hgb⟩ := h.child hf hc
    have hbc : b ∈ t.lineage c := by
      rw [h.lineage_of_ne_root hg hroot, hgb]
      exact List.mem_cons_of_mem _ (h.self_mem_lineage hf)
    refine ⟨?_, g, (hp.find?_eq (h.mem_lineage_trans hup hbc)).trans hg, hgb⟩
    rw [hp.root]
    rintro rfl
    -- a child that is the new root would lie above its parent and below it
    have hbc' := h.mem_lineage_antisymm hbc hup
    subst hbc'
    obtain ⟨p, hpar, -, hh, -⟩ := h.link hg hroot
    rw [hgb, hg] at hpar
    cases hpar
    omega
  children_nodup hf := h.children_nodup (hp.of_find? hf).2
  mem_tips {b} := by
    rw [hp.mem_tips, h.mem_tips]
    constructor
    · rintro ⟨⟨f, hf, hnil⟩, hup⟩
      exact ⟨f, (hp.find?_eq hup).trans hf, hnil⟩
    · rintro ⟨f, hf, hnil⟩
      obtain ⟨hup, hf⟩ := hp.of_find? hf
      exact ⟨⟨f, hf, hnil⟩, hup⟩
  tips_nodup := hp.tips_nodup

theorem weighted (h : t.WellFormed) (hw : t.Weighted) (hp : t.IsUpperPart id t') :
    t'.Weighted := by
  intro b f hf hne
  obtain ⟨hup, hf⟩ := hp.of_find? hf
  refine hw b f hf ?_
  rintro rfl
  rw [h.lineage_root] at hup
  rw [hp.root] at hne
  exact hne (List.mem_singleton.1 hup).symm

end IsUpperPart

end ChainTree

end LedgerChain
