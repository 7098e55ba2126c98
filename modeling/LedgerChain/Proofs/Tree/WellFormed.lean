import LedgerChain.Tree
import Mathlib.Data.List.Basic
import Mathlib.Data.List.Nodup

/-!
# Well-formed trees

A tree of blocks is well formed (`ChainTree.WellFormed`) if its parts agree with each other: every
block other than the root lies right above a block of the tree, which lists it as a child, and the
tips are the blocks without children.  A tree with only a root is well formed, and attaching keeps
it so (`wellFormed_ofRoot`, `WellFormed.graft_of_not_overflows`), unless a sum of heights overflows
(`ChainTree.Overflows`).  Sums of weights are whatever comes out of them.

In a well-formed tree every block reaches the root along the parent links
(`WellFormed.induction`).
-/

namespace LedgerChain

/-- Every step of a run meets a condition, in the state in which it is taken. -/
def Along {σ α : Type} (next : σ → α → σ) (ok : σ → α → Prop) : σ → List α → Prop
  | _, [] => True
  | s, a :: rest => ok s a ∧ Along next ok (next s a) rest

namespace Along

variable {σ α : Type} {next : σ → α → σ} {ok : σ → α → Prop} {s : σ} {steps : List α}

theorem of_forall (h : ∀ a ∈ steps, ∀ s, ok s a) (s : σ) : Along next ok s steps := by
  induction steps generalizing s with
  | nil => trivial
  | cons a rest ih =>
    exact ⟨h a List.mem_cons_self s, ih (fun b hb => h b (List.mem_cons_of_mem _ hb)) _⟩

theorem foldl {P : σ → Prop} (h : Along next ok s steps)
    (step : ∀ {s a}, P s → ok s a → P (next s a)) (hs : P s) : P (steps.foldl next s) := by
  induction steps generalizing s with
  | nil => exact hs
  | cons a rest ih => exact ih h.2 (step hs h.1)

end Along

theorem ChainTip.height_lt (tip : ChainTip) : tip.height < UInt64.size := UInt64.toNat_lt_size _

namespace ChainTree

variable [Crypto] [Sums] {t t' : ChainTree} {id a b c : BlockId} {e p : TreeEntry} {tip : ChainTip}

omit [Crypto] [Sums] in
theorem contains_iff : t.contains id = true ↔ ∃ e, t.find? id = some e :=
  Table.contains_iff

omit [Crypto] [Sums] in
theorem find?_eq_none_iff : t.find? id = none ↔ t.contains id = false := by
  unfold contains Table.contains find?
  cases t.entries.find? id <;> simp

/-- A tree whose parts agree with each other. -/
structure WellFormed (t : ChainTree) : Prop where
  root_mem : ∃ e, t.find? t.root = some e
  /-- Every block is kept under its own identifier. -/
  id_eq : ∀ {id e}, t.find? id = some e → e.tip.id = id
  /-- A block other than the root lies right above its parent, which lists it. -/
  link : ∀ {id e}, t.find? id = some e → id ≠ t.root →
    ∃ p, t.find? e.parent = some p ∧ id ∈ p.children ∧ e.height = p.height + 1 ∧
      e.cumulativeWeight = Sums.addWeights p.cumulativeWeight e.tip.weight
  /-- A listed child is in the tree and has the lister as its parent. -/
  child : ∀ {id e c}, t.find? id = some e → c ∈ e.children →
    c ≠ t.root ∧ ∃ f, t.find? c = some f ∧ f.parent = id
  children_nodup : ∀ {id e}, t.find? id = some e → e.children.Nodup
  mem_tips : ∀ {id}, id ∈ t.tips ↔ ∃ e, t.find? id = some e ∧ e.children = []
  tips_nodup : t.tips.Nodup

omit [Crypto] [Sums] in
theorem rootHeight_eq (h : t.find? t.root = some e) : t.rootHeight = e.height := by
  rw [rootHeight, h, Option.map_some, Option.getD_some]

/-- **Every block of a well-formed tree reaches the root**: what holds of the root, and of a block
whenever it holds of its parent, holds of all blocks. -/
theorem WellFormed.induction (h : t.WellFormed) {P : BlockId → Prop} (root : P t.root)
    (step : ∀ id e, t.find? id = some e → id ≠ t.root → P e.parent → P id)
    (he : t.find? id = some e) : P id := by
  -- by the height, which is one less at the parent
  induction hn : e.height generalizing id e with
  | zero =>
    by_cases hid : id = t.root
    · exact hid ▸ root
    · obtain ⟨p, -, -, hh, -⟩ := h.link he hid
      omega
  | succ n ih =>
    by_cases hid : id = t.root
    · exact hid ▸ root
    · obtain ⟨p, hp, -, hh, -⟩ := h.link he hid
      exact step id e he hid (ih hp (by omega))

/-! ### A tree with only a root -/

omit [Sums] in
theorem find?_ofRoot (tip : ChainTip) (w : Nat) (id : BlockId) :
    (ofRoot tip w).find? id = if id = tip.id then some ⟨tip, [], w⟩ else none := by
  by_cases h : id = tip.id
  · simp [ofRoot, find?, Table.find?, Table.single, Table.findRow, h]
  · simp [ofRoot, find?, Table.find?, Table.single, Table.findRow, h, Ne.symm h]

theorem wellFormed_ofRoot (tip : ChainTip) (w : Nat) : (ofRoot tip w).WellFormed where
  root_mem := ⟨⟨tip, [], w⟩, by rw [find?_ofRoot]; exact if_pos rfl⟩
  id_eq h := by
    rw [find?_ofRoot] at h
    split at h
    · rename_i hid
      cases h
      exact hid.symm
    · cases h
  link h hne := by
    rw [find?_ofRoot, if_neg (show _ ≠ tip.id from hne)] at h
    cases h
  child h hc := by
    rw [find?_ofRoot] at h
    split at h
    · cases h; cases hc
    · cases h
  children_nodup h := by
    rw [find?_ofRoot] at h
    split at h
    · cases h; exact List.nodup_nil
    · cases h
  mem_tips := by
    intro id
    simp only [find?_ofRoot]
    refine ⟨fun h => ?_, fun ⟨e, he, _⟩ => ?_⟩
    · obtain rfl := List.mem_singleton.1 h
      exact ⟨_, if_pos rfl, rfl⟩
    · by_contra hne
      rw [if_neg fun hid => hne (List.mem_singleton.2 hid)] at he
      cases he
  tips_nodup := List.nodup_singleton _

/-! ### Attaching -/

/-- The tree after a new block is put on a block of the tree. -/
def graft (t : ChainTree) (tip : ChainTip) (below : TreeEntry) : ChainTree where
  root := t.root
  entries := (t.entries.insert tip.parent
    { below with children := below.children.insert tip.id }).insert tip.id
      { tip, cumulativeWeight := Sums.addWeights below.cumulativeWeight tip.weight }
  tips := (t.tips.filter fun b => b ≠ tip.parent).insert tip.id

/-- A new block **overflows** a tree if the sum of heights that it is checked against does not fit:
it passes the check without being one higher than its parent. -/
def Overflows (t : ChainTree) (tip : ChainTip) : Prop :=
  t.find? tip.id = none ∧ ∃ below, t.find? tip.parent = some below ∧
    tip.height = Sums.addHeights below.height 1 ∧ tip.height ≠ below.height + 1

omit [Sums] in
theorem not_overflows (t : ChainTree) (tip : ChainTip) : ¬ @Overflows _ .unbounded t tip :=
  fun ⟨_, _, _, heq, hne⟩ => hne heq

omit [Crypto] in
theorem eq_addHeights_one {below : Nat} (h : tip.height = below + 1) :
    tip.height = Sums.addHeights below 1 := by
  rw [Sums.addHeights_eq (h ▸ tip.height_lt), h]

theorem attach_ok_cases {forked : Bool} (h : t.attach tip = .ok (forked, t')) :
    (t.contains tip.id = true ∧ t' = t) ∨
      ∃ below, t.find? tip.id = none ∧ t.find? tip.parent = some below ∧
        tip.height = Sums.addHeights below.height 1 ∧ t' = t.graft tip below := by
  simp only [attach] at h
  split at h
  · rename_i hc
    cases h
    exact Or.inl ⟨hc, rfl⟩
  · rename_i hc
    split at h
    · cases h
    · rename_i below hbelow
      split at h
      · cases h
      · rename_i hheight
        cases h
        exact Or.inr ⟨below, find?_eq_none_iff.2 (by simpa using hc), hbelow,
          not_not.1 hheight, rfl⟩

theorem attach_eq_graft {below : TreeEntry} (hnew : t.find? tip.id = none)
    (hbelow : t.find? tip.parent = some below)
    (hheight : tip.height = Sums.addHeights below.height 1) :
    ∃ forked, t.attach tip = .ok (forked, t.graft tip below) := by
  refine ⟨decide (tip.parent ∉ t.tips), ?_⟩
  unfold attach
  rw [find?_eq_none_iff] at hnew
  simp only [hnew, hbelow, hheight]
  simp [graft]

theorem find?_graft (below : TreeEntry) (id : BlockId) :
    (t.graft tip below).find? id =
      if id = tip.id then some ⟨tip, [], Sums.addWeights below.cumulativeWeight tip.weight⟩
      else if id = tip.parent then
        some { below with children := below.children.insert tip.id }
      else t.find? id := by
  simp only [graft, find?, Table.find?_insert]

theorem find?_graft_self (t : ChainTree) (tip : ChainTip) (below : TreeEntry) :
    (t.graft tip below).find? tip.id =
      some ⟨tip, [], Sums.addWeights below.cumulativeWeight tip.weight⟩ := by
  rw [find?_graft, if_pos rfl]

@[simp] theorem root_graft (below : TreeEntry) : (t.graft tip below).root = t.root := rfl

theorem mem_tips_graft (below : TreeEntry) :
    id ∈ (t.graft tip below).tips ↔ id = tip.id ∨ id ∈ t.tips ∧ id ≠ tip.parent := by
  simp [graft, List.mem_insert_iff]

theorem find?_graft_of_find? {below : TreeEntry} (hnew : t.find? tip.id = none)
    (hbelow : t.find? tip.parent = some below) (he : t.find? id = some e) :
    ∃ f, (t.graft tip below).find? id = some f ∧ f.tip = e.tip ∧
      f.cumulativeWeight = e.cumulativeWeight ∧
      f.children = if id = tip.parent then e.children.insert tip.id else e.children := by
  have hid : id ≠ tip.id := by
    rintro rfl
    rw [hnew] at he
    cases he
  rw [find?_graft, if_neg hid]
  by_cases hpar : id = tip.parent
  · subst hpar
    rw [hbelow] at he
    cases he
    exact ⟨_, if_pos rfl, rfl, rfl, by rw [if_pos rfl]⟩
  · rw [if_neg hpar, he]
    exact ⟨e, rfl, rfl, rfl, by rw [if_neg hpar]⟩

theorem find?_of_find?_graft {below f : TreeEntry} (hbelow : t.find? tip.parent = some below)
    (hf : (t.graft tip below).find? id = some f) :
    (id = tip.id ∧ f = ⟨tip, [], Sums.addWeights below.cumulativeWeight tip.weight⟩) ∨
      ∃ e, id ≠ tip.id ∧ t.find? id = some e ∧ f.tip = e.tip ∧
        f.cumulativeWeight = e.cumulativeWeight ∧
        f.children = if id = tip.parent then e.children.insert tip.id else e.children := by
  rw [find?_graft] at hf
  by_cases hid : id = tip.id
  · rw [if_pos hid] at hf
    cases hf
    exact Or.inl ⟨hid, rfl⟩
  · rw [if_neg hid] at hf
    by_cases hpar : id = tip.parent
    · rw [if_pos hpar] at hf
      cases hf
      exact Or.inr ⟨below, hid, hpar ▸ hbelow, rfl, rfl, by rw [if_pos hpar]⟩
    · rw [if_neg hpar] at hf
      exact Or.inr ⟨f, hid, hf, rfl, rfl, by rw [if_neg hpar]⟩

theorem WellFormed.graft (h : t.WellFormed) {below : TreeEntry} (hnew : t.find? tip.id = none)
    (hbelow : t.find? tip.parent = some below) (hheight : tip.height = below.height + 1) :
    (t.graft tip below).WellFormed where
  root_mem := by
    obtain ⟨e, he⟩ := h.root_mem
    obtain ⟨f, hf, -⟩ := find?_graft_of_find? hnew hbelow he
    exact ⟨f, hf⟩
  id_eq hf := by
    obtain ⟨rfl, rfl⟩ | ⟨e, -, he, htip, -⟩ := find?_of_find?_graft hbelow hf
    · rfl
    · rw [htip]; exact h.id_eq he
  link {id f} hf hne := by
    obtain ⟨rfl, rfl⟩ | ⟨e, -, he, htip, hcw, -⟩ := find?_of_find?_graft hbelow hf
    · obtain ⟨p, hp, hptip, hpcw, hpch⟩ := find?_graft_of_find? hnew hbelow hbelow
      refine ⟨p, hp, ?_, ?_, by rw [hpcw]⟩
      · rw [hpch, if_pos rfl]
        exact List.mem_insert_self
      · rw [TreeEntry.height, TreeEntry.height, hptip]
        exact hheight
    · obtain ⟨q, hq, hmem, hh, hw⟩ := h.link he hne
      obtain ⟨p, hp, hptip, hpcw, hpch⟩ := find?_graft_of_find? hnew hbelow hq
      refine ⟨p, ?_, ?_, ?_, by rw [hcw, hw, hpcw, htip]⟩
      · rw [TreeEntry.parent, htip]
        exact hp
      · rw [hpch]
        split
        · exact List.mem_insert_of_mem hmem
        · exact hmem
      · rw [TreeEntry.height, TreeEntry.height, htip, hptip]
        exact hh
  child {id f c} hf hc := by
    obtain ⟨rfl, rfl⟩ | ⟨e, -, he, htip, -, hch⟩ := find?_of_find?_graft hbelow hf
    · cases hc
    · have hold : c ∈ e.children → c ≠ t.root ∧ ∃ g, (t.graft tip below).find? c = some g ∧
          g.parent = id := by
        intro hmem
        obtain ⟨hroot, g, hg, hgp⟩ := h.child he hmem
        obtain ⟨k, hk, hktip, -⟩ := find?_graft_of_find? hnew hbelow hg
        exact ⟨hroot, k, hk, by rw [TreeEntry.parent, hktip]; exact hgp⟩
      rw [hch] at hc
      split at hc
      · rename_i hid
        -- the parent has the new block as a child, which is not the root as it was not there
        rcases List.mem_insert_iff.1 hc with rfl | hmem
        · refine ⟨?_, ⟨tip, [], _⟩, find?_graft_self t tip below, hid.symm⟩
          intro hroot
          obtain ⟨r, hr⟩ := h.root_mem
          rw [hroot, root_graft, hr] at hnew
          cases hnew
        · exact hold hmem
      · exact hold hc
  children_nodup {id f} hf := by
    obtain ⟨rfl, rfl⟩ | ⟨e, -, he, -, -, hch⟩ := find?_of_find?_graft hbelow hf
    · exact List.nodup_nil
    · rw [hch]
      split
      · exact (h.children_nodup he).insert
      · exact h.children_nodup he
  mem_tips {id} := by
    have hself : tip.id ≠ tip.parent := by
      intro heq
      rw [heq, hbelow] at hnew
      cases hnew
    rw [mem_tips_graft]
    constructor
    · rintro (rfl | ⟨hmem, hne⟩)
      · exact ⟨_, find?_graft_self t tip below, rfl⟩
      · obtain ⟨e, he, hnil⟩ := h.mem_tips.1 hmem
        obtain ⟨f, hf, -, -, hch⟩ := find?_graft_of_find? hnew hbelow he
        exact ⟨f, hf, by rw [hch, if_neg hne, hnil]⟩
    · rintro ⟨f, hf, hnil⟩
      obtain ⟨rfl, rfl⟩ | ⟨e, -, he, -, -, hch⟩ := find?_of_find?_graft hbelow hf
      · exact Or.inl rfl
      · rw [hnil] at hch
        split at hch
        -- the parent has a child now
        · have hmem : tip.id ∈ e.children.insert tip.id := List.mem_insert_self
          rw [← hch] at hmem
          cases hmem
        · rename_i hne
          exact Or.inr ⟨h.mem_tips.2 ⟨e, he, hch.symm⟩, hne⟩
  tips_nodup := (h.tips_nodup.filter _).insert

/-- **A block that passes the check of heights keeps a tree well formed**, unless it overflows. -/
theorem WellFormed.graft_of_not_overflows (h : t.WellFormed) (hfit : ¬ t.Overflows tip)
    {below : TreeEntry} (hnew : t.find? tip.id = none) (hbelow : t.find? tip.parent = some below)
    (heq : tip.height = Sums.addHeights below.height 1) : (t.graft tip below).WellFormed := by
  refine h.graft hnew hbelow ?_
  by_contra hne
  exact hfit ⟨hnew, below, hbelow, heq, hne⟩

end ChainTree

end LedgerChain
