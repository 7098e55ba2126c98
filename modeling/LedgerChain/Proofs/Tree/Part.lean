import LedgerChain.Proofs.ForkChoice.Consider

/-!
# Parts of a tree with states and weights

A tree is a **part** of another one if its blocks are in the other tree with the states and, above
its root, with the weights that they have there.  The roots may differ, and so may what they weigh,
but between the blocks of the part all differences in weight are the same in both trees
(`Part.weight_eq`), so both compare the blocks in the same way (`Part.beats_iff`).
-/

namespace LedgerChain

namespace ForkChoice

theorem beats_shift {a b : BlockId} {x y x' y' k k' : Nat} (hx : x + k' = x' + k)
    (hy : y + k' = y' + k) : beats (a, x) (b, y) = beats (a, x') (b, y') := by
  rw [Bool.eq_iff_iff, beats_iff, beats_iff]
  constructor
  · rintro (h | ⟨h, hid⟩)
    · exact Or.inl (by dsimp only at h ⊢; omega)
    · exact Or.inr ⟨by dsimp only at h ⊢; omega, hid⟩
  · rintro (h | ⟨h, hid⟩)
    · exact Or.inl (by dsimp only at h ⊢; omega)
    · exact Or.inr ⟨by dsimp only at h ⊢; omega, hid⟩

end ForkChoice

namespace ChainTree

variable [Crypto] {t t' u : ChainTree} {id a b : BlockId} {e f : TreeEntry} {tip : ChainTip}

/-- The first tree is a part of the second one. -/
def Part (t u : ChainTree) : Prop :=
  ∀ id e, t.find? id = some e → ∃ f, u.find? id = some f ∧ f.tip.block = e.tip.block ∧
    f.tip.state = e.tip.state ∧ (id ≠ t.root → f.tip.weight = e.tip.weight)

omit [Crypto] in
theorem Part.within (h : t.Part u) : t.Within u := by
  intro id e he
  obtain ⟨f, hf, hblock, -⟩ := h id e he
  exact ⟨f, hf, hblock⟩

/-- Weights relative to the root of the part are the same in both trees. -/
theorem Part.weight_eq (h : t.Part u) (ht : t.WellFormed) (hu : u.WellFormed) {r r' : TreeEntry}
    (hr : t.find? t.root = some r) (hr' : u.find? t.root = some r') (he : t.find? id = some e)
    (hf : u.find? id = some f) :
    e.cumulativeWeight + r'.cumulativeWeight = f.cumulativeWeight + r.cumulativeWeight := by
  refine ht.induction (P := fun b => ∀ e f, t.find? b = some e → u.find? b = some f →
    e.cumulativeWeight + r'.cumulativeWeight = f.cumulativeWeight + r.cumulativeWeight) ?_
    (fun b g hg hne ih => ?_) he e f he hf
  · intro e f he hf
    rw [hr] at he
    rw [hr'] at hf
    cases he
    cases hf
    exact Nat.add_comm _ _
  · intro e f he hf
    rw [hg] at he
    cases he
    obtain ⟨f', hf', hblock, -, hweight⟩ := h b g hg
    rw [hf] at hf'
    cases hf'
    obtain ⟨p, hp, -, -, hcw⟩ := ht.link hg hne
    obtain ⟨q, hq, -, -, hcw'⟩ := hu.link hf (ht.ne_root_of_within hu h.within hg hne)
    rw [Within.parent_eq hblock] at hq
    rw [Sums.addWeights_unbounded] at hcw hcw'
    have := ih p q hp hq
    have := hweight hne
    omega

theorem Part.beats_iff (h : t.Part u) (ht : t.WellFormed) (hu : u.WellFormed)
    {ea eb fa fb : TreeEntry} (hea : t.find? a = some ea) (heb : t.find? b = some eb)
    (hfa : u.find? a = some fa) (hfb : u.find? b = some fb) :
    ForkChoice.beats (a, ea.cumulativeWeight) (b, eb.cumulativeWeight) =
      ForkChoice.beats (a, fa.cumulativeWeight) (b, fb.cumulativeWeight) := by
  obtain ⟨r, hr⟩ := ht.root_mem
  obtain ⟨r', hr', -⟩ := h t.root r hr
  exact ForkChoice.beats_shift (h.weight_eq ht hu hr hr' hea hfa) (h.weight_eq ht hu hr hr' heb hfb)

theorem Part.weighted (h : t.Part u) (ht : t.WellFormed) (hu : u.WellFormed) (hw : u.Weighted) :
    t.Weighted := by
  intro id e he hne
  obtain ⟨f, hf, -, -, hweight⟩ := h id e he
  rw [← hweight hne]
  exact hw id f hf (ht.ne_root_of_within hu h.within he hne)

/-! ### Attaching and finalizing -/

theorem Part.graft_right (h : t.Part u) {below : TreeEntry} (hfits : u.Fits tip below) :
    t.Part (u.graft tip below) := by
  intro id e he
  obtain ⟨f, hf, hblock, hstate, hweight⟩ := h id e he
  obtain ⟨g, hg, htip, -⟩ := find?_graft_of_find? hfits.fresh hfits.on_tree hf
  exact ⟨g, hg, by rw [htip, hblock], by rw [htip, hstate], fun hne => by rw [htip, hweight hne]⟩

theorem Part.graft (h : t.Part u) {below below' : TreeEntry} (hfits : t.Fits tip below)
    (hfits' : u.Fits tip below') : (t.graft tip below).Part (u.graft tip below') := by
  intro id e he
  obtain ⟨rfl, rfl⟩ | ⟨f, -, hf, htip, -⟩ := find?_of_find?_graft hfits.on_tree he
  · exact ⟨_, find?_graft_self u tip below', rfl, rfl, fun _ => rfl⟩
  · obtain ⟨g, hg, hblock, hstate, hweight⟩ := h.graft_right hfits' id f hf
    exact ⟨g, hg, by rw [htip, hblock], by rw [htip, hstate], fun hne => by rw [htip, hweight hne]⟩

theorem Part.graft_left (h : t.Part u) {below : TreeEntry}
    (hbelow : t.find? tip.parent = some below) (hf : u.find? tip.id = some f)
    (htip : f.tip = tip) :
    (t.graft tip below).Part u := by
  intro id e he
  obtain ⟨rfl, rfl⟩ | ⟨g, -, hg, hsame, -⟩ := find?_of_find?_graft hbelow he
  · exact ⟨f, hf, by rw [htip], by rw [htip], fun _ => by rw [htip]⟩
  · rw [hsame]
    exact h id g hg

theorem Part.of_isUpperPart (h : t.Part u) (ht : t.WellFormed) (hup : t.IsUpperPart t'.root t') :
    t'.Part u := by
  intro id e he
  obtain ⟨hmem, he⟩ := hup.of_find? he
  obtain ⟨f, hf, hblock, hstate, hweight⟩ := h id e he
  refine ⟨f, hf, hblock, hstate, fun hne => hweight ?_⟩
  rintro rfl
  rw [ht.lineage_root] at hmem
  exact hne (List.mem_singleton.1 hmem).symm

end ChainTree

end LedgerChain
