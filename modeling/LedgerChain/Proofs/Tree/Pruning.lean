import LedgerChain.Proofs.Tree.WellFormed

/-!
# Taking blocks out of a tree

Blocks are taken out of a tree one by one.  Taking one out disturbs its relatives, but if with every
kept block the ones above it are kept too, only blocks that are still to go are disturbed.  `Pruned`
is what holds on the way, and `Pruned.foldl` what holds in the end.
-/

namespace LedgerChain

namespace ChainTree

variable {t cur : ChainTree} {id a b c x : BlockId} {e f : TreeEntry}
  {keep : BlockId → Prop}

/-! ### Taking blocks out -/

theorem root_remove (t : ChainTree) (x : BlockId) : (t.remove x).root = t.root := by
  simp only [remove]
  split
  · rfl
  · split <;> rfl

/-- The entries after a removal: the removed one is gone, and only the parent's has changed. -/
theorem find?_remove (t : ChainTree) (x b : BlockId) :
    (b = x ∧ (t.remove x).find? b = none) ∨
      b ≠ x ∧ ((t.remove x).find? b = t.find? b ∨
        t.parent? x = some b ∧ ∃ e, t.find? b = some e ∧
          (t.remove x).find? b =
            some { e with children := e.children.filter fun c => c ≠ x }) := by
  have herase : ∀ tips, ({ t with entries := t.entries.erase x, tips } : ChainTree).find? b =
      if b = x then none else t.find? b := fun tips => Table.find?_erase _ _ _
  simp only [remove]
  split
  · rw [herase]
    by_cases hb : b = x
    · exact Or.inl ⟨hb, if_pos hb⟩
    · exact Or.inr ⟨hb, Or.inl (if_neg hb)⟩
  · rename_i parent hparent
    split
    · rw [herase]
      by_cases hb : b = x
      · exact Or.inl ⟨hb, if_pos hb⟩
      · exact Or.inr ⟨hb, Or.inl (if_neg hb)⟩
    · rename_i below hbelow
      rw [Table.find?_erase] at hbelow
      -- the parent is looked up after the block is gone, so it is another block
      have hpx : parent ≠ x := by
        rintro rfl
        rw [if_pos rfl] at hbelow
        cases hbelow
      rw [if_neg hpx] at hbelow
      have hfind : ∀ tips, ({ t with
          entries := (t.entries.erase x).insert parent
            { below with children := below.children.filter fun c => c ≠ x }, tips } :
          ChainTree).find? b =
            if b = parent then some { below with children := below.children.filter fun c => c ≠ x }
            else if b = x then none else t.find? b := by
        intro tips
        simp only [find?, Table.find?_insert, Table.find?_erase]
      rw [hfind]
      by_cases hb : b = x
      · subst hb
        exact Or.inl ⟨rfl, by rw [if_neg (Ne.symm hpx), if_pos rfl]⟩
      · refine Or.inr ⟨hb, ?_⟩
        by_cases hp : b = parent
        · subst hp
          exact Or.inr ⟨hparent, below, hbelow, if_pos rfl⟩
        · exact Or.inl (by rw [if_neg hp, if_neg hb])

/-- The tips after a removal: the removed block is none of them, and only its parent can have become
one. -/
theorem mem_tips_remove (t : ChainTree) (x b : BlockId) :
    b ∈ (t.remove x).tips ↔ b ≠ x ∧ (b ∈ t.tips ∨ t.parent? x = some b ∧
      ∃ e, t.find? b = some e ∧ e.children.filter (fun c => c ≠ x) = []) := by
  simp only [remove]
  split
  · rename_i hparent
    simp [hparent, and_comm]
  · rename_i parent hparent
    rw [hparent]
    split
    · rename_i hbelow
      rw [Table.find?_erase] at hbelow
      simp only [List.mem_filter, decide_eq_true_eq, Option.some.injEq]
      constructor
      · rintro ⟨hb, hne⟩
        exact ⟨hne, Or.inl hb⟩
      · rintro ⟨hne, hb | ⟨rfl, e, he, -⟩⟩
        · exact ⟨hb, hne⟩
        · rw [if_neg hne] at hbelow
          rw [find?, hbelow] at he
          cases he
    · rename_i below hbelow
      rw [Table.find?_erase] at hbelow
      have hpx : parent ≠ x := by
        rintro rfl
        rw [if_pos rfl] at hbelow
        cases hbelow
      rw [if_neg hpx] at hbelow
      simp only [List.mem_filter, decide_eq_true_eq, Option.some.injEq, List.isEmpty_iff]
      split
      -- the parent becomes a tip if this was its only child
      · rename_i hnil
        rw [List.mem_insert_iff]
        constructor
        · rintro ⟨rfl | hb, hne⟩
          · exact ⟨hne, Or.inr ⟨rfl, below, hbelow, hnil⟩⟩
          · exact ⟨hne, Or.inl hb⟩
        · rintro ⟨hne, hb | ⟨rfl, -⟩⟩
          · exact ⟨Or.inr hb, hne⟩
          · exact ⟨Or.inl rfl, hne⟩
      · rename_i hnil
        constructor
        · rintro ⟨hb, hne⟩
          exact ⟨hne, Or.inl hb⟩
        · rintro ⟨hne, hb | ⟨rfl, e, he, hnil'⟩⟩
          · exact ⟨hb, hne⟩
          · rw [find?, hbelow] at he
            cases he
            exact absurd hnil' hnil

theorem nodup_tips_remove (h : t.tips.Nodup) (x : BlockId) : (t.remove x).tips.Nodup := by
  simp only [remove]
  split
  · exact h.filter _
  · split
    · exact h.filter _
    · refine List.Nodup.filter _ ?_
      split
      · exact h.insert
      · exact h

/-- What is left of a tree while the blocks that are not kept are taken out one by one. -/
structure Pruned (t : ChainTree) (keep : BlockId → Prop) (cur : ChainTree) : Prop where
  root : cur.root = t.root
  /-- The kept blocks are as they were. -/
  kept : ∀ b, keep b → cur.find? b = t.find? b
  /-- The others have lost children at most. -/
  old : ∀ b f, cur.find? b = some f → ∃ e, t.find? b = some e ∧ f.tip = e.tip
  kept_tips : ∀ b, keep b → (b ∈ cur.tips ↔ b ∈ t.tips)
  tips_mem : ∀ b ∈ cur.tips, ∃ f, cur.find? b = some f
  tips_nodup : cur.tips.Nodup

theorem WellFormed.pruned_self [Crypto] [Sums] (h : t.WellFormed) (keep : BlockId → Prop) :
    t.Pruned keep t where
  root := rfl
  kept _ _ := rfl
  old b f hf := ⟨f, hf, rfl⟩
  kept_tips _ _ := Iff.rfl
  tips_mem b hb := by
    obtain ⟨e, he, -⟩ := h.mem_tips.1 hb
    exact ⟨e, he⟩
  tips_nodup := h.tips_nodup

/-- The parent of a block that goes is not kept, if with every block the ones above it are. -/
theorem Pruned.not_keep_parent (hp : t.Pruned keep cur)
    (hup : ∀ b e, t.find? b = some e → b ≠ t.root → keep e.parent → keep b) (hx : ¬ keep x)
    (hb : cur.parent? x = some b) : ¬ keep b := by
  unfold parent? at hb
  split at hb
  · cases hb
  · rename_i hroot
    obtain ⟨f, hf, rfl⟩ := Option.map_eq_some_iff.1 hb
    obtain ⟨e, he, htip⟩ := hp.old x f hf
    rw [hp.root] at hroot
    intro hkeep
    rw [TreeEntry.parent, htip] at hkeep
    exact hx (hup x e he hroot hkeep)

theorem Pruned.remove (hp : t.Pruned keep cur)
    (hup : ∀ b e, t.find? b = some e → b ≠ t.root → keep e.parent → keep b) (hx : ¬ keep x) :
    t.Pruned keep (cur.remove x) where
  root := (root_remove cur x).trans hp.root
  kept b hb := by
    obtain ⟨rfl, -⟩ | ⟨-, h | ⟨hparent, -⟩⟩ := find?_remove cur x b
    · exact absurd hb hx
    · exact h.trans (hp.kept b hb)
    -- only the parent's entry changes, and the parent is not kept either
    · exact absurd hb (hp.not_keep_parent hup hx hparent)
  old b f hf := by
    obtain ⟨-, h⟩ | ⟨-, h | ⟨-, g, hg, h⟩⟩ := find?_remove cur x b
    · rw [h] at hf
      cases hf
    · exact hp.old b f (h ▸ hf)
    · rw [h] at hf
      cases hf
      exact hp.old b g hg
  kept_tips b hb := by
    rw [mem_tips_remove, ← hp.kept_tips b hb]
    refine ⟨fun ⟨_, h⟩ => h.resolve_right fun ⟨hparent, _⟩ => ?_, fun h => ⟨?_, Or.inl h⟩⟩
    · exact hp.not_keep_parent hup hx hparent hb
    · rintro rfl
      exact hx hb
  tips_mem b hb := by
    obtain ⟨hne, h⟩ := (mem_tips_remove cur x b).1 hb
    have hmem : ∃ f, cur.find? b = some f := by
      rcases h with h | ⟨-, e, he, -⟩
      · exact hp.tips_mem b h
      · exact ⟨e, he⟩
    obtain ⟨f, hf⟩ := hmem
    obtain ⟨h, -⟩ | ⟨-, h | ⟨-, _, -, h⟩⟩ := find?_remove cur x b
    · exact absurd h hne
    · exact ⟨f, h.trans hf⟩
    · exact ⟨_, h⟩
  tips_nodup := nodup_tips_remove hp.tips_nodup x

theorem find?_forget (t : ChainTree) (x b : BlockId) :
    (t.forget x).find? b = if b = x then none else t.find? b :=
  Table.find?_erase _ _ _

theorem mem_tips_forget (t : ChainTree) (x b : BlockId) :
    b ∈ (t.forget x).tips ↔ b ∈ t.tips ∧ b ≠ x := by
  simp [forget]

theorem Pruned.forget (hp : t.Pruned keep cur) (hx : ¬ keep x) :
    t.Pruned keep (cur.forget x) where
  root := hp.root
  kept b hb := by
    rw [find?_forget, if_neg (by rintro rfl; exact hx hb)]
    exact hp.kept b hb
  old b f hf := by
    rw [find?_forget] at hf
    split at hf
    · cases hf
    · exact hp.old b f hf
  kept_tips b hb := by
    rw [mem_tips_forget, ← hp.kept_tips b hb]
    exact and_iff_left (by rintro rfl; exact hx hb)
  tips_mem b hb := by
    obtain ⟨hb, hne⟩ := (mem_tips_forget cur x b).1 hb
    rw [find?_forget, if_neg hne]
    exact hp.tips_mem b hb
  tips_nodup := hp.tips_nodup.filter _

theorem Pruned.foldl {op : ChainTree → BlockId → ChainTree}
    (hop : ∀ cur x, t.Pruned keep cur → ¬ keep x → t.Pruned keep (op cur x))
    (hgone : ∀ cur x b, b = x ∨ cur.find? b = none → (op cur x).find? b = none)
    (hp : t.Pruned keep cur) {xs : List BlockId} (hxs : ∀ x ∈ xs, ¬ keep x) :
    t.Pruned keep (xs.foldl op cur) ∧
      ∀ b, b ∈ xs ∨ cur.find? b = none → (xs.foldl op cur).find? b = none := by
  induction xs generalizing cur with
  | nil => exact ⟨hp, fun b hb => hb.resolve_left (by simp)⟩
  | cons x xs ih =>
    have hstep := hop cur x hp (hxs x List.mem_cons_self)
    obtain ⟨h1, h2⟩ := ih hstep fun y hy => hxs y (List.mem_cons_of_mem _ hy)
    refine ⟨h1, fun b hb => h2 b ?_⟩
    rcases hb with hb | hb
    · rcases List.mem_cons.1 hb with rfl | hb
      · exact Or.inr (hgone cur b b (Or.inl rfl))
      · exact Or.inl hb
    · exact Or.inr (hgone cur x b (Or.inr hb))

theorem find?_remove_eq_none (cur : ChainTree) (x b : BlockId)
    (h : b = x ∨ cur.find? b = none) : (cur.remove x).find? b = none := by
  obtain ⟨-, hgone⟩ | ⟨hne, hsame | ⟨-, e, he, -⟩⟩ := find?_remove cur x b
  · exact hgone
  · exact hsame.trans (h.resolve_left hne)
  · rw [h.resolve_left hne] at he
    cases he

theorem find?_forget_eq_none (cur : ChainTree) (x b : BlockId)
    (h : b = x ∨ cur.find? b = none) : (cur.forget x).find? b = none := by
  rw [find?_forget]
  split
  · rfl
  · rename_i hne
    exact h.resolve_left hne

end ChainTree

end LedgerChain
