import LedgerChain.ForkChoice
import LedgerChain.Proofs.Tree.Finalize

/-!
# The best tip

Weighted blocks are ordered by weight, and blocks of one weight by their identifiers, the smaller
one being the better (`beats`).  This is a strict order in which any two different blocks compare,
so a list of them has at most one best element, in whatever order it is given.

In a well-formed tree in which every block adds to the weight, `bestTip?` finds the one block that
beats all others (`bestTip?_eq_some_iff`): no block beats the tips above it.

* `foldl_better_spec` : the best of a list is in it and beats all others.
* `WellFormed.isBest_of_tips`, `WellFormed.isBest_of_beats` : a tip that beats all other tips beats
  all blocks, and a block that beats all others is a tip.
-/

namespace LedgerChain

/-! ### The order of identifiers -/

namespace BlockId

theorem lt_irrefl (a : BlockId) : ¬ a < a := List.lt_irrefl a.digest.toList

theorem lt_trans {a b c : BlockId} (h₁ : a < b) (h₂ : b < c) : a < c :=
  List.lt_trans (show a.digest.toList < b.digest.toList from h₁) h₂

theorem lt_or_lt_of_ne {a b : BlockId} (h : a ≠ b) : a < b ∨ b < a := by
  by_cases hab : a < b
  · exact Or.inl hab
  · right
    have hne : a.digest.toList ≠ b.digest.toList := by
      intro heq
      obtain ⟨⟨as, ha⟩⟩ := a
      obtain ⟨⟨bs, hb⟩⟩ := b
      cases heq
      exact h rfl
    rcases List.le_iff_lt_or_eq.1 (List.not_lt.1 hab) with hlt | heq
    · exact hlt
    · exact absurd heq.symm hne

end BlockId

namespace ForkChoice

variable {a b c m : BlockId × Nat} {l : List (BlockId × Nat)}

theorem beats_iff : beats a b = true ↔ b.2 < a.2 ∨ a.2 = b.2 ∧ a.1 < b.1 := by
  simp [beats]

theorem beats_irrefl (a : BlockId × Nat) : beats a a = false := by
  rw [Bool.eq_false_iff, ne_eq, beats_iff]
  rintro (h | ⟨-, h⟩)
  · exact Nat.lt_irrefl _ h
  · exact BlockId.lt_irrefl _ h

theorem beats_trans (h₁ : beats a b = true) (h₂ : beats b c = true) : beats a c = true := by
  rw [beats_iff] at *
  rcases h₁ with h₁ | ⟨h₁, h₁'⟩ <;> rcases h₂ with h₂ | ⟨h₂, h₂'⟩
  · exact Or.inl (by omega)
  · exact Or.inl (by omega)
  · exact Or.inl (by omega)
  · exact Or.inr ⟨h₁.trans h₂, BlockId.lt_trans h₁' h₂'⟩

theorem beats_asymm (h : beats a b = true) : beats b a = false := by
  rw [Bool.eq_false_iff]
  intro h'
  have := beats_trans h h'
  rw [beats_irrefl] at this
  cases this

theorem beats_total (h : a ≠ b) : beats a b = true ∨ beats b a = true := by
  rw [beats_iff, beats_iff]
  rcases Nat.lt_trichotomy a.2 b.2 with hlt | heq | hgt
  · exact Or.inr (Or.inl hlt)
  · have hid : a.1 ≠ b.1 := fun hid => h (Prod.ext hid heq)
    rcases BlockId.lt_or_lt_of_ne hid with hlt | hgt
    · exact Or.inl (Or.inr ⟨heq, hlt⟩)
    · exact Or.inr (Or.inr ⟨heq.symm, hgt⟩)
  · exact Or.inl (Or.inl hgt)

theorem beats_of_beats_of_lt (h : beats a b = true) (hlt : c.2 < b.2) : beats a c = true := by
  rw [beats_iff] at *
  left
  rcases h with h | ⟨h, -⟩ <;> omega

/-! ### The best of a list -/

theorem better_spec (a b : BlockId × Nat) :
    (better a b = a ∨ better a b = b) ∧
      (a = better a b ∨ beats (better a b) a = true) ∧
      (b = better a b ∨ beats (better a b) b = true) := by
  unfold better
  split
  · rename_i h
    exact ⟨Or.inr rfl, Or.inr h, Or.inl rfl⟩
  · rename_i h
    refine ⟨Or.inl rfl, Or.inl rfl, ?_⟩
    by_cases hab : a = b
    · exact Or.inl hab.symm
    · exact Or.inr ((beats_total hab).resolve_right h)

/-- The best of a list is in it and beats all others. -/
theorem foldl_better_spec (l : List (BlockId × Nat)) (a : BlockId × Nat) :
    l.foldl better a ∈ a :: l ∧
      ∀ b ∈ a :: l, b = l.foldl better a ∨ beats (l.foldl better a) b = true := by
  induction l generalizing a with
  | nil => exact ⟨List.mem_cons_self, fun b hb => Or.inl (List.mem_singleton.1 hb)⟩
  | cons c l ih =>
    obtain ⟨hmem, hmax⟩ := ih (better a c)
    obtain ⟨hor, ha, hc⟩ := better_spec a c
    have hfirst := hmax _ List.mem_cons_self
    -- the best beats whatever the better of the first two beats
    have hup : ∀ b, b = better a c ∨ beats (better a c) b = true →
        b = l.foldl better (better a c) ∨ beats (l.foldl better (better a c)) b = true := by
      rintro b (rfl | hb)
      · exact hfirst
      · rcases hfirst with h | h
        · exact Or.inr (h ▸ hb)
        · exact Or.inr (beats_trans h hb)
    rw [List.foldl_cons]
    constructor
    · rcases List.mem_cons.1 hmem with h | h
      · rw [h]
        rcases hor with h' | h'
        · rw [h']
          exact List.mem_cons_self
        · rw [h']
          exact List.mem_cons_of_mem _ List.mem_cons_self
      · exact List.mem_cons_of_mem _ (List.mem_cons_of_mem _ h)
    · intro b hb
      rcases List.mem_cons.1 hb with rfl | hb
      · exact hup b ha
      · rcases List.mem_cons.1 hb with rfl | hb
        · exact hup b hc
        · exact hmax b (List.mem_cons_of_mem _ hb)

end ForkChoice

/-! ### The best tip of a tree -/

namespace ChainTree

variable [Crypto] {t : ChainTree} {id a b : BlockId} {e : TreeEntry}

/-- A tip that beats all other blocks of its tree. -/
structure IsBest (t : ChainTree) (id : BlockId) : Prop where
  mem_tips : id ∈ t.tips
  beats : ∀ {e b f}, t.find? id = some e → t.find? b = some f → b ≠ id →
    ForkChoice.beats (id, e.cumulativeWeight) (b, f.cumulativeWeight) = true

theorem IsBest.unique [Sums] (h : t.WellFormed) (ha : t.IsBest a) (hb : t.IsBest b) : a = b := by
  by_contra hne
  obtain ⟨e, he, -⟩ := h.mem_tips.1 ha.mem_tips
  obtain ⟨f, hf, -⟩ := h.mem_tips.1 hb.mem_tips
  have h₁ := ha.beats he hf (Ne.symm hne)
  have h₂ := hb.beats hf he hne
  rw [ForkChoice.beats_asymm h₁] at h₂
  cases h₂

theorem WellFormed.isBest_of_tips (h : t.WellFormed) (hw : t.Weighted) (hid : id ∈ t.tips)
    (he : t.find? id = some e)
    (htips : ∀ l f, l ∈ t.tips → t.find? l = some f → l ≠ id →
      ForkChoice.beats (id, e.cumulativeWeight) (l, f.cumulativeWeight) = true) :
    t.IsBest id := by
  refine ⟨hid, fun {e' b f} he' hf hne => ?_⟩
  rw [he] at he'
  cases he'
  obtain ⟨l, hl, hbl⟩ := h.exists_tip_above hf
  obtain ⟨g, hg, -⟩ := h.mem_tips.1 hl
  by_cases hbl' : b = l
  · subst hbl'
    exact htips b f hl hf hne
  · -- the tip above is heavier than the block
    have hlt := h.weight_lt_of_mem_lineage hw hf hg hbl hbl'
    by_cases hli : l = id
    · subst hli
      rw [he] at hg
      cases hg
      exact ForkChoice.beats_iff.2 (Or.inl hlt)
    · exact ForkChoice.beats_of_beats_of_lt (htips l g hl hg hli) hlt

theorem WellFormed.isBest_of_beats (h : t.WellFormed) (hw : t.Weighted) (he : t.find? id = some e)
    (hbeats : ∀ b f, t.find? b = some f → b ≠ id →
      ForkChoice.beats (id, e.cumulativeWeight) (b, f.cumulativeWeight) = true) : t.IsBest id := by
  refine ⟨?_, fun {e' b f} he' hf hne => ?_⟩
  · obtain ⟨l, hl, hup⟩ := h.exists_tip_above he
    by_cases hsame : id = l
    · rw [hsame]
      exact hl
    · -- a tip above would be heavier
      obtain ⟨g, hg, -⟩ := h.mem_tips.1 hl
      have hlt := h.weight_lt_of_mem_lineage hw he hg hup hsame
      rcases ForkChoice.beats_iff.1 (hbeats l g hg (Ne.symm hsame)) with hgt | ⟨heq, -⟩
      · exact absurd hlt (Nat.lt_asymm hgt)
      · exact absurd heq (Nat.ne_of_lt hlt)
  · rw [he] at he'
    cases he'
    exact hbeats b f hf hne

omit [Crypto] in
theorem mem_weightedTips {x : BlockId × Nat} :
    x ∈ ForkChoice.weightedTips t ↔
      x.1 ∈ t.tips ∧ ∃ e, t.find? x.1 = some e ∧ e.cumulativeWeight = x.2 := by
  simp only [ForkChoice.weightedTips, List.mem_filterMap, Option.map_eq_some_iff]
  constructor
  · rintro ⟨id, hid, e, he, rfl⟩
    exact ⟨hid, e, he, rfl⟩
  · rintro ⟨hid, e, he, hw⟩
    exact ⟨x.1, hid, e, he, Prod.ext rfl hw⟩

/-- The best tip found beats all other tips, whatever the blocks weigh. -/
theorem WellFormed.bestTip?_spec [Sums] (h : t.WellFormed) :
    ∃ id e, ForkChoice.bestTip? t = some id ∧ id ∈ t.tips ∧ t.find? id = some e ∧
      ∀ l f, l ∈ t.tips → t.find? l = some f → l ≠ id →
        ForkChoice.beats (id, e.cumulativeWeight) (l, f.cumulativeWeight) = true := by
  obtain ⟨r, hr⟩ := h.root_mem
  obtain ⟨l, hl, -⟩ := h.exists_tip_above hr
  obtain ⟨g, hg, -⟩ := h.mem_tips.1 hl
  have hmem : (l, g.cumulativeWeight) ∈ ForkChoice.weightedTips t :=
    mem_weightedTips.2 ⟨hl, g, hg, rfl⟩
  unfold ForkChoice.bestTip?
  cases htips : ForkChoice.weightedTips t with
  | nil =>
    rw [htips] at hmem
    cases hmem
  | cons x xs =>
    obtain ⟨hbest, hmax⟩ := ForkChoice.foldl_better_spec xs x
    set m := xs.foldl ForkChoice.better x with hm
    rw [← htips] at hbest hmax
    obtain ⟨hmt, e, he, hcw⟩ := mem_weightedTips.1 hbest
    refine ⟨m.1, e, by rw [ForkChoice.bestOf, ← hm, Option.map_some], hmt, he,
      fun b f hb hf hne => ?_⟩
    rw [hcw]
    refine (hmax (b, f.cumulativeWeight) (mem_weightedTips.2 ⟨hb, f, hf, rfl⟩)).resolve_left ?_
    intro heq
    exact hne (congrArg Prod.fst heq)

/-- **The best tip found is the block that beats all others**, if every block adds to the weight. -/
theorem WellFormed.exists_bestTip (h : t.WellFormed) (hw : t.Weighted) :
    ∃ id, ForkChoice.bestTip? t = some id ∧ t.IsBest id := by
  obtain ⟨id, e, hid, htip, he, hbeats⟩ := h.bestTip?_spec
  exact ⟨id, hid, h.isBest_of_tips hw htip he hbeats⟩

theorem WellFormed.bestTip?_eq_some_iff (h : t.WellFormed) (hw : t.Weighted) :
    ForkChoice.bestTip? t = some id ↔ t.IsBest id := by
  obtain ⟨a, ha, hbest⟩ := h.exists_bestTip hw
  rw [ha, Option.some.injEq]
  exact ⟨fun heq => heq ▸ hbest, fun hid => hbest.unique h hid⟩

omit [Crypto] in
theorem IsBest.of_isUpperPart {t' : ChainTree} (hbest : t.IsBest b)
    (hp : t.IsUpperPart id t') (hid : id ∈ t.lineage b) : t'.IsBest b where
  mem_tips := (hp.mem_tips b).2 ⟨hbest.mem_tips, hid⟩
  beats he hf hne := hbest.beats (hp.of_find? he).2 (hp.of_find? hf).2 hne

end ChainTree

end LedgerChain
