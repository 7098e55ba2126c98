import LedgerChain.Proofs.Tree.Lineage
import Mathlib.Data.List.Chain
import Mathlib.Logic.Relation

/-!
# The blocks along a lineage

A block lies on another one (`Block.On`) if it names it as its parent and is one higher.  The
blocks along a lineage of a well-formed tree lie on each other (`WellFormed.isChain_blocks`), so a
block descends (`Block.Descends`) from every block on its lineage.  The part of a lineage above one of
its blocks is a path (`ChainTree.pathBlocks`).
-/

namespace LedgerChain

namespace Block

variable [Crypto] {a b c : Block}

/-- A block lies right above another one. -/
def On (b below : Block) : Prop := b.parent = below.id ∧ b.height = below.height + 1

/-- A block is another one or lies above it, block by block. -/
def Descends (b : Block) : Block → Prop := Relation.ReflTransGen On b

theorem Descends.refl (b : Block) : b.Descends b := Relation.ReflTransGen.refl

theorem Descends.trans (hab : a.Descends b) (hbc : b.Descends c) : a.Descends c :=
  Relation.ReflTransGen.trans hab hbc

theorem Descends.height_le (h : a.Descends b) : b.height ≤ a.height := by
  induction h with
  | refl => exact Nat.le_refl _
  | tail _ hon ih => exact Nat.le_trans (by rw [hon.2]; exact Nat.le_succ _) ih

theorem Descends.eq_of_height_zero (h : a.Descends b) (hzero : a.height = 0) : b = a := by
  rcases Relation.ReflTransGen.cases_head h with rfl | ⟨c, hon, -⟩
  · rfl
  · rw [hon.2] at hzero
    cases hzero

end Block

namespace ChainTree

/-- The blocks with the given identifiers that are in the tree. -/
def blocks (t : ChainTree) (ids : List BlockId) : List Block :=
  ids.filterMap fun id => (t.find? id).map fun e => e.tip.block

variable {t u : ChainTree} {id a b : BlockId} {ids : List BlockId} {e f : TreeEntry}

theorem blocks_append (t : ChainTree) (xs ys : List BlockId) :
    t.blocks (xs ++ ys) = t.blocks xs ++ t.blocks ys :=
  List.filterMap_append

theorem blocks_reverse (t : ChainTree) (ids : List BlockId) :
    t.blocks ids.reverse = (t.blocks ids).reverse :=
  List.filterMap_reverse

theorem blocks_cons (he : t.find? id = some e) (ids : List BlockId) :
    t.blocks (id :: ids) = e.tip.block :: t.blocks ids := by
  simp only [blocks, List.filterMap_cons, he, Option.map_some]

theorem blocks_congr (h : ∀ id ∈ ids, ∃ e f, t.find? id = some e ∧ u.find? id = some f ∧
    f.tip = e.tip) : u.blocks ids = t.blocks ids := by
  refine List.filterMap_congr fun id hid => ?_
  obtain ⟨e, f, he, hf, heq⟩ := h id hid
  rw [he, hf, Option.map_some, Option.map_some, heq]

variable [Crypto] [Sums]

theorem WellFormed.map_id_blocks (h : t.WellFormed)
    (hids : ∀ id ∈ ids, ∃ e, t.find? id = some e) : (t.blocks ids).map Block.id = ids := by
  induction ids with
  | nil => rfl
  | cons id rest ih =>
    obtain ⟨e, he⟩ := hids id List.mem_cons_self
    rw [blocks_cons he, List.map_cons, ih fun x hx => hids x (List.mem_cons_of_mem _ hx)]
    exact congrArg (· :: rest) (h.id_eq he)

theorem WellFormed.find?_of_mem_lineage_left (h : t.WellFormed) (ha : a ∈ t.lineage id) :
    ∃ e, t.find? a = some e := by
  obtain ⟨e, -, he, -⟩ := h.find?_of_mem_lineage ha
  exact ⟨e, he⟩

theorem WellFormed.on_parent (h : t.WellFormed) (he : t.find? id = some e) (hne : id ≠ t.root) :
    ∃ p, t.find? e.parent = some p ∧ e.tip.block.On p.tip.block := by
  obtain ⟨p, hp, -, hheight, -⟩ := h.link he hne
  exact ⟨p, hp, (h.id_eq hp).symm, hheight⟩

/-- **Along a lineage each block lies on the next one.** -/
theorem WellFormed.isChain_blocks (h : t.WellFormed) (id : BlockId) :
    (t.blocks (t.lineage id)).IsChain Block.On := by
  cases he : t.find? id with
  | none =>
    rw [lineage_of_find?_eq_none he]
    exact List.IsChain.nil
  | some e =>
    refine h.induction (P := fun b => (t.blocks (t.lineage b)).IsChain Block.On) ?_
      (fun b f hf hne ih => ?_) he
    · obtain ⟨r, hr⟩ := h.root_mem
      rw [h.lineage_root, blocks_cons hr]
      exact List.IsChain.singleton _
    · obtain ⟨p, hp, hon⟩ := h.on_parent hf hne
      rw [h.lineage_of_ne_root hf hne, blocks_cons hf, List.isChain_cons]
      refine ⟨fun y hy => ?_, ih⟩
      rw [h.lineage_eq_cons hp, blocks_cons hp, List.head?_cons, Option.mem_some_iff] at hy
      exact hy ▸ hon

theorem WellFormed.descends_of_mem_lineage (h : t.WellFormed) (hab : a ∈ t.lineage b)
    (ha : t.find? a = some e) (hb : t.find? b = some f) : f.tip.block.Descends e.tip.block := by
  refine h.induction (P := fun b => ∀ f, t.find? b = some f → a ∈ t.lineage b →
    f.tip.block.Descends e.tip.block) ?_ (fun b g hg hne ih => ?_) hb f hb hab
  · intro f hf hmem
    rw [h.lineage_root, List.mem_singleton] at hmem
    rw [← hmem, ha] at hf
    cases hf
    exact Block.Descends.refl _
  · intro f hf hmem
    rw [hg] at hf
    cases hf
    by_cases hab : a = b
    · rw [← hab, ha] at hg
      cases hg
      exact Block.Descends.refl _
    · rw [h.lineage_of_ne_root hg hne] at hmem
      obtain ⟨p, hp, hon⟩ := h.on_parent hg hne
      exact Relation.ReflTransGen.head hon (ih p hp ((List.mem_cons.1 hmem).resolve_left hab))

/-! ### Paths -/

/-- The blocks of a path: from a block down to one of those it lies above, which is left out. -/
def pathBlocks (t : ChainTree) (a b : BlockId) : List Block :=
  t.blocks ((t.lineage b).takeWhile (· ≠ a))

theorem WellFormed.pathBlocks_self (h : t.WellFormed) (ha : t.find? a = some e) :
    t.pathBlocks a a = [] := by
  rw [pathBlocks, h.lineage_eq_cons ha, List.takeWhile_cons_of_neg (by simp)]
  rfl

theorem WellFormed.pathBlocks_of_ne (h : t.WellFormed) (hb : t.find? b = some e)
    (hroot : b ≠ t.root) (hab : a ≠ b) :
    t.pathBlocks a b = e.tip.block :: t.pathBlocks a e.parent := by
  rw [pathBlocks, h.lineage_of_ne_root hb hroot,
    List.takeWhile_cons_of_pos (by simpa using Ne.symm hab), blocks_cons hb, pathBlocks]

/-- **Induction along a path**, from the lower block up. -/
theorem WellFormed.path_induct (h : t.WellFormed)
    {P : BlockId → TreeEntry → List Block → Prop} {below : TreeEntry}
    (ha : t.find? a = some below) (start : P a below [])
    (step : ∀ {b e p bs}, t.find? b = some e → b ≠ t.root → t.find? e.parent = some p →
      P e.parent p bs → P b e (e.tip.block :: bs))
    (hab : a ∈ t.lineage b) (hb : t.find? b = some e) : P b e (t.pathBlocks a b) := by
  have hself : ∀ e, t.find? a = some e → P a e (t.pathBlocks a a) := by
    intro e he
    rw [ha] at he
    cases he
    rw [h.pathBlocks_self ha]
    exact start
  refine h.induction (P := fun b => ∀ e, t.find? b = some e → a ∈ t.lineage b →
    P b e (t.pathBlocks a b)) ?_ (fun b f hf hne ih => ?_) hb e hb hab
  · intro e he hmem
    rw [h.lineage_root] at hmem
    cases List.mem_singleton.1 hmem
    exact hself e he
  · intro e he hmem
    by_cases hsame : a = b
    · cases hsame
      exact hself e he
    · rw [hf] at he
      cases he
      rw [h.lineage_of_ne_root hf hne] at hmem
      obtain ⟨p, hp, -⟩ := h.link hf hne
      rw [h.pathBlocks_of_ne hf hne hsame]
      exact step hf hne hp (ih p hp ((List.mem_cons.1 hmem).resolve_left hsame))

end ChainTree

end LedgerChain
