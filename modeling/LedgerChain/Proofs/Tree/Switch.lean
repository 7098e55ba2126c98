import LedgerChain.Proofs.Tree.Blocks
import LedgerChain.Proofs.Tree.Splitting

/-!
# The shortest switch

To switch from one block to another is to take off the blocks on the path from the first one down to
the pivot, and to put on those from there up to the second one; the pivot is the lowest common
ancestor (`Switch`).  Every other path between the two through a shared block leads through the pivot,
so no switch is shorter (`Switch.length_le`), and nothing is taken off that is put on again
(`Switch.nodup`).  `reorg?`, and the two walks that meet, find this switch between any two blocks of a
well-formed tree (`WellFormed.reorg?_finds_switch`).
-/

namespace LedgerChain

namespace ChainTree

/-- A way leads from one block down to the lowest common ancestor of both, and up to the other. -/
structure Switch (t : ChainTree) (way : Reorg) (a b : BlockId) : Prop where
  down : t.Path a way.down way.pivot
  up : t.Path b way.up.reverse way.pivot
  lowest : ∀ c, t.Descends a c → t.Descends b c → t.Descends way.pivot c

variable [Crypto] [Sums] {t : ChainTree} {way : Reorg} {a b c : BlockId} {e f : TreeEntry}

theorem Leads.switch (hway : t.Leads way a b) (h : t.WellFormed) (ha : t.find? a = some e) :
    t.Switch way a b := by
  obtain ⟨p, hp⟩ := h.find?_of_mem_lineage_left hway.pivot_mem
  refine ⟨(h.path_iff hp).2 hway.lineage_start, (h.path_iff hp).2 hway.lineage_dest, ?_⟩
  intro c hac hbc
  have hca := hac.mem_lineage h ha
  obtain ⟨g, hg⟩ := h.find?_of_mem_lineage_left hca
  have hcb := (h.descends_iff hg).1 hbc
  -- a shared block is not taken off, so it is the pivot or below it
  rw [hway.lineage_start, List.mem_append] at hca
  exact (h.descends_iff hg).2 (hca.resolve_left fun hdown => hway.apart c hdown hcb)

namespace Switch

omit [Crypto] [Sums] in
theorem symm (hway : t.Switch way a b) :
    t.Switch ⟨way.up.reverse, way.pivot, way.down.reverse⟩ b a where
  down := hway.up
  up := by
    rw [List.reverse_reverse]
    exact hway.down
  lowest c hbc hac := hway.lowest c hac hbc

theorem down_eq_nil_iff (hway : t.Switch way a b) (h : t.WellFormed) (ha : t.find? a = some e) :
    way.down = [] ↔ t.Descends b a := by
  obtain ⟨p, hp⟩ := hway.down.find?_end h ha
  constructor
  · intro hnil
    have hdown := hway.down
    rw [hnil] at hdown
    cases hdown
    exact ⟨_, hway.up⟩
  · intro hba
    have hpivot := Descends.antisymm h ha ⟨_, hway.down⟩ (hway.lowest a (.refl t a) hba)
    have hdown := hway.down
    rw [← hpivot] at hdown
    exact Path.unique h ha (.stay a) hdown

theorem up_eq_nil_iff (hway : t.Switch way a b) (h : t.WellFormed) (hb : t.find? b = some f) :
    way.up = [] ↔ t.Descends a b := by
  rw [← List.reverse_eq_nil_iff]
  exact hway.symm.down_eq_nil_iff h hb

/-- **No block comes twice**, neither on one side nor on both. -/
theorem nodup (hway : t.Switch way a b) (h : t.WellFormed) (ha : t.find? a = some e) :
    (way.down ++ way.up).Nodup := by
  obtain ⟨p, hp⟩ := hway.down.find?_end h ha
  have hline := (h.path_iff hp).1 hway.down
  have hline' := (h.path_iff hp).1 hway.up
  refine List.nodup_append.2 ⟨hway.down.nodup h hp,
    List.nodup_reverse.1 (hway.up.nodup h hp), ?_⟩
  rintro x hx _ hy rfl
  -- a block on both sides would be shared, and yet lie above the pivot
  have hxa : x ∈ t.lineage a := hline ▸ List.mem_append_left _ hx
  have hxb : x ∈ t.lineage b := hline' ▸ List.mem_append_left _ (List.mem_reverse.2 hy)
  obtain ⟨g, hg⟩ := h.find?_of_mem_lineage_left hxa
  have hlow := hway.lowest x ((h.descends_iff hg).2 hxa) ((h.descends_iff hg).2 hxb)
  have hnodup := h.nodup_lineage a
  rw [hline] at hnodup
  exact (List.nodup_append.1 hnodup).2.2 x hx x (hlow.mem_lineage h hp) rfl

/-- **No other way through a shared block is shorter.** -/
theorem length_le (hway : t.Switch way a b) (h : t.WellFormed) (ha : t.find? a = some e)
    {down up : List BlockId} (hdown : t.Path a down c) (hup : t.Path b up c) :
    way.down.length + way.up.length ≤ down.length + up.length := by
  obtain ⟨g, hg⟩ := hdown.find?_end h ha
  obtain ⟨rest, hrest⟩ := hway.lowest c ⟨down, hdown⟩ ⟨up, hup⟩
  have hdown' := Path.unique h hg hdown (hway.down.append hrest)
  have hup' := Path.unique h hg hup (hway.up.append hrest)
  rw [← hdown', ← hup', List.length_append, List.length_append, List.length_reverse]
  omega

end Switch

/-- **Between any two blocks of a well-formed tree the shortest switch is found.**

* Two walks down the parent links, the higher one in turn, meet after a number of rounds; what they
  have passed by then is the way that `reorg?` gives.
* It goes down the path from the first block to the lowest common ancestor of both, and up the path
  from there to the second block.
* No block comes twice on it, or on both of its sides.
* Nothing is taken off exactly if the second block descends from the first one, nothing is put on
  exactly if the first one descends from the second one, and neither exactly if they are the same.
* No way between the two through a shared block is shorter.

There is no way from or to a block that is not in the tree. -/
theorem WellFormed.reorg?_finds_switch (h : t.WellFormed) (a b : BlockId) :
    (t.contains a = true → t.contains b = true → ∃ walk rounds way,
      t.reorgStart a b = some walk ∧ EndsIn t.reorgRound rounds walk (some way) ∧
      t.reorg? a b = some way ∧ t.Switch way a b ∧ (way.down ++ way.up).Nodup ∧
      (way.down = [] ↔ t.Descends b a) ∧ (way.up = [] ↔ t.Descends a b) ∧
      (way.down = [] ∧ way.up = [] ↔ a = b) ∧
      ∀ c down up, t.Path a down c → t.Path b up c →
        way.down.length + way.up.length ≤ down.length + up.length) ∧
    (t.contains a = false ∨ t.contains b = false →
      t.reorgStart a b = none ∧ t.reorg? a b = none) := by
  constructor
  · intro hina hinb
    obtain ⟨e, ha⟩ := contains_iff.1 hina
    obtain ⟨f, hb⟩ := contains_iff.1 hinb
    obtain ⟨way, hreorg, hleads⟩ := h.exists_reorg ha hb
    obtain ⟨rounds, hends⟩ := h.reorgWalk_ends (.start ha hb)
    rw [hreorg] at hends
    have hway := hleads.switch h ha
    have hdown := hway.down_eq_nil_iff h ha
    have hup := hway.up_eq_nil_iff h hb
    refine ⟨⟨a, e.height, b, f.height, [], []⟩, rounds, way, by simp [reorgStart, ha, hb], hends,
      hreorg, hway, hway.nodup h ha, hdown, hup, ?_, fun c down up => hway.length_le h ha⟩
    rw [hdown, hup]
    constructor
    · rintro ⟨hba, hab⟩
      exact Descends.antisymm h ha hab hba
    · rintro rfl
      exact ⟨.refl t a, .refl t a⟩
  · intro hout
    have hstart : t.reorgStart a b = none := by
      rcases hout with hout | hout
      · simp [reorgStart, find?_eq_none_iff.2 hout]
      · simp [reorgStart, find?_eq_none_iff.2 hout]
    exact ⟨hstart, reorg?_of_start_eq_none hstart⟩

omit [Crypto] [Sums] in
/-- From the top of one branch to the other branch, two blocks are taken off and one is put on. -/
theorem reorg?_finds_switch_fork :
    letI := Crypto.transparent
    ∃ way, sampleFork.reorg? sampleTop.id sampleRight.id = some way ∧
      sampleFork.Switch way sampleTop.id sampleRight.id ∧
      way = ⟨[sampleTop.id, sampleLeft.id], sampleFork.root, [sampleRight.id]⟩ := by
  let _ := Crypto.transparent
  have hrun : sampleFork.reorg? sampleTop.id sampleRight.id =
      some ⟨[sampleTop.id, sampleLeft.id], sampleFork.root, [sampleRight.id]⟩ := by
    decide +kernel
  obtain ⟨hin, -⟩ := WellFormed.reorg?_finds_switch (t := sampleFork)
    (wellFormed_grown (inRange_unbounded _ _ _)) sampleTop.id sampleRight.id
  obtain ⟨walk, rounds, way, -, -, hreorg, hway, -⟩ := hin (by decide +kernel) (by decide +kernel)
  exact ⟨way, hreorg, hway, Option.some.inj (hreorg.symm.trans hrun)⟩

end ChainTree

end LedgerChain
