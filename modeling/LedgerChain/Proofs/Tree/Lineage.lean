import LedgerChain.Proofs.Tree.WellFormed
import Mathlib.Data.List.Infix

/-!
# Lineages in well-formed trees

The lineage of a block, from it down to the root, orders the tree: `a ∈ t.lineage b` says that `b`
is `a` or lies above it.  Lineages are computed block by block (`lineage_root`,
`lineage_of_ne_root`); along them heights fall by one and cumulative weights fall.

A tree can be part of another one with a lower root (`Within`).  Its lineages are then the upper
parts of the lineages there (`lineage_eq_append`).

* `WellFormed.lineage_suffix` : the lineage of a block on a lineage is the rest of it.
* `WellFormed.mem_lineage_total`, `WellFormed.mem_lineage_antisymm` : of two blocks on one lineage
  one is on the lineage of the other, and both only if they are the same.
* `WellFormed.ancestorAt?_spec` : a lineage has one block of every height between those of its
  ends.
* `WellFormed.lineage_graft`, `WellFormed.lineage_graft_self` : a new leaf leaves all other
  lineages alone, and its own leads through its parent.
-/

namespace LedgerChain

namespace ChainTree

variable [Crypto] [Sums] {t u : ChainTree} {id a b c : BlockId} {e : TreeEntry} {tip : ChainTip}

omit [Crypto] [Sums] in
theorem lineage_of_find?_eq_none (h : t.find? id = none) : t.lineage id = [] := by
  unfold lineage lineageFrom
  rw [h]

omit [Crypto] [Sums] in
theorem lineageFrom_root {e : TreeEntry} (h : t.find? t.root = some e) (steps : Nat) :
    t.lineageFrom steps t.root = [t.root] := by
  unfold lineageFrom
  rw [h]
  exact if_pos rfl

theorem WellFormed.lineage_root (h : t.WellFormed) : t.lineage t.root = [t.root] := by
  obtain ⟨e, he⟩ := h.root_mem
  exact lineageFrom_root he _

theorem WellFormed.lineage_of_ne_root (h : t.WellFormed) (he : t.find? id = some e)
    (hne : id ≠ t.root) : t.lineage id = id :: t.lineage e.parent := by
  obtain ⟨p, hp, -, hh, -⟩ := h.link he hne
  unfold lineage
  rw [he, hp, lineageFrom, he]
  simp only [if_neg hne, Option.map_some, Option.getD_some, hh]

theorem WellFormed.lineage_eq_cons (h : t.WellFormed) (he : t.find? id = some e) :
    t.lineage id = id :: (t.lineage id).tail := by
  by_cases hid : id = t.root
  · rw [hid, h.lineage_root]
    rfl
  · rw [h.lineage_of_ne_root he hid]
    rfl

theorem WellFormed.self_mem_lineage (h : t.WellFormed) (he : t.find? id = some e) :
    id ∈ t.lineage id := by
  rw [h.lineage_eq_cons he]
  exact List.mem_cons_self

theorem WellFormed.root_mem_lineage (h : t.WellFormed) (he : t.find? id = some e) :
    t.root ∈ t.lineage id := by
  refine h.induction (P := fun b => t.root ∈ t.lineage b) ?_ (fun b f hf hne ih => ?_) he
  · rw [h.lineage_root]
    exact List.mem_singleton_self _
  · rw [h.lineage_of_ne_root hf hne]
    exact List.mem_cons_of_mem _ ih

theorem WellFormed.lineageFrom_eq_lineage (h : t.WellFormed) (he : t.find? id = some e)
    {steps : Nat} (hle : (t.lineage id).length ≤ steps + 1) :
    t.lineageFrom steps id = t.lineage id := by
  refine h.induction (P := fun b => ∀ steps, (t.lineage b).length ≤ steps + 1 →
    t.lineageFrom steps b = t.lineage b) ?_ (fun b f hf hne ih => ?_) he steps hle
  · intro steps _
    obtain ⟨r, hr⟩ := h.root_mem
    rw [lineageFrom_root hr, h.lineage_root]
  · intro steps hle
    obtain ⟨p, hp, -⟩ := h.link hf hne
    have hpos := List.length_pos_of_mem (h.root_mem_lineage hp)
    rw [h.lineage_of_ne_root hf hne, List.length_cons] at hle
    obtain ⟨n, rfl⟩ := Nat.exists_eq_succ_of_ne_zero (n := steps) (by omega)
    rw [h.lineage_of_ne_root hf hne, lineageFrom, hf]
    simp only [if_neg hne, ih n (by omega)]

theorem WellFormed.lineage_suffix (h : t.WellFormed) (he : t.find? id = some e)
    (ha : a ∈ t.lineage id) : t.lineage a <:+ t.lineage id := by
  refine h.induction (P := fun b => a ∈ t.lineage b → t.lineage a <:+ t.lineage b) ?_
    (fun b f hf hne ih => ?_) he ha
  · intro hmem
    rw [h.lineage_root, List.mem_singleton] at hmem
    subst hmem
    exact List.suffix_refl _
  · intro hmem
    by_cases hab : a = b
    · subst hab
      exact List.suffix_refl _
    · rw [h.lineage_of_ne_root hf hne] at hmem ⊢
      have hrest : a ∈ t.lineage f.parent := (List.mem_cons.1 hmem).resolve_left hab
      exact (ih hrest).trans (List.suffix_cons _ _)

theorem WellFormed.find?_of_mem_lineage (h : t.WellFormed) (ha : a ∈ t.lineage id) :
    ∃ e f, t.find? a = some e ∧ t.find? id = some f := by
  cases hf : t.find? id with
  | none =>
    rw [lineage_of_find?_eq_none hf] at ha
    cases ha
  | some f =>
    suffices ∃ e, t.find? a = some e by
      obtain ⟨e, he⟩ := this
      exact ⟨e, f, he, rfl⟩
    -- up from the root, where the lineage is the root alone
    refine h.induction (P := fun b => a ∈ t.lineage b → ∃ e, t.find? a = some e) ?_
      (fun b g hg hne ih => ?_) hf ha
    · intro hmem
      rw [h.lineage_root, List.mem_singleton] at hmem
      exact hmem ▸ h.root_mem
    · intro hmem
      rw [h.lineage_of_ne_root hg hne] at hmem
      rcases List.mem_cons.1 hmem with rfl | hmem
      · exact ⟨g, hg⟩
      · exact ih hmem

theorem WellFormed.mem_lineage_trans (h : t.WellFormed) (hab : a ∈ t.lineage b)
    (hbc : b ∈ t.lineage c) : a ∈ t.lineage c := by
  obtain ⟨-, f, -, hf⟩ := h.find?_of_mem_lineage hbc
  exact (h.lineage_suffix hf hbc).subset hab

theorem WellFormed.height_lt_of_mem_lineage (h : t.WellFormed) {ea eb : TreeEntry}
    (hea : t.find? a = some ea) (heb : t.find? b = some eb) (hab : a ∈ t.lineage b)
    (hne : a ≠ b) : ea.height < eb.height := by
  refine h.induction (P := fun b => ∀ eb, t.find? b = some eb → a ∈ t.lineage b → a ≠ b →
    ea.height < eb.height) ?_ (fun b f hf hroot ih => ?_) heb eb heb hab hne
  · intro eb _ hmem hne
    rw [h.lineage_root, List.mem_singleton] at hmem
    exact absurd hmem hne
  · intro eb heb hmem hne
    rw [hf] at heb
    cases heb
    obtain ⟨p, hp, -, hh, -⟩ := h.link hf hroot
    rw [h.lineage_of_ne_root hf hroot] at hmem
    have hrest : a ∈ t.lineage f.parent := (List.mem_cons.1 hmem).resolve_left hne
    by_cases hap : a = f.parent
    · subst hap
      rw [hea] at hp
      cases hp
      omega
    · have := ih p hp hrest hap
      omega

theorem WellFormed.mem_lineage_antisymm (h : t.WellFormed) (hab : a ∈ t.lineage b)
    (hba : b ∈ t.lineage a) : a = b := by
  by_contra hne
  obtain ⟨ea, eb, hea, heb⟩ := h.find?_of_mem_lineage hab
  have h1 := h.height_lt_of_mem_lineage hea heb hab hne
  have h2 := h.height_lt_of_mem_lineage heb hea hba (Ne.symm hne)
  omega

theorem WellFormed.mem_lineage_total (h : t.WellFormed) (ha : a ∈ t.lineage c)
    (hb : b ∈ t.lineage c) : a ∈ t.lineage b ∨ b ∈ t.lineage a := by
  obtain ⟨ea, f, hea, hf⟩ := h.find?_of_mem_lineage ha
  obtain ⟨eb, -, heb, -⟩ := h.find?_of_mem_lineage hb
  have hsa := h.lineage_suffix hf ha
  have hsb := h.lineage_suffix hf hb
  rcases List.suffix_or_suffix_of_suffix hsa hsb with hs | hs
  · exact Or.inl (hs.subset (h.self_mem_lineage hea))
  · exact Or.inr (hs.subset (h.self_mem_lineage heb))

theorem WellFormed.nodup_lineage (h : t.WellFormed) (id : BlockId) : (t.lineage id).Nodup := by
  cases he : t.find? id with
  | none =>
    rw [lineage_of_find?_eq_none he]
    exact List.nodup_nil
  | some e =>
    refine h.induction (P := fun b => (t.lineage b).Nodup) ?_ (fun b f hf hne ih => ?_) he
    · rw [h.lineage_root]
      exact List.nodup_singleton _
    · rw [h.lineage_of_ne_root hf hne]
      refine List.nodup_cons.2 ⟨fun hmem => ?_, ih⟩
      obtain ⟨p, hp, -, hh, -⟩ := h.link hf hne
      by_cases hbp : b = f.parent
      · rw [← hbp, hf] at hp
        cases hp
        omega
      · have := h.height_lt_of_mem_lineage hf hp hmem hbp
        omega

omit [Crypto] [Sums] in
theorem takeWhile_ne_append_cons {above below : List BlockId}
    (h : (above ++ a :: below).Nodup) :
    (above ++ a :: below).takeWhile (fun x => x ≠ a) = above := by
  have hne : ∀ x ∈ above, x ≠ a := fun x hx =>
    (List.nodup_append.1 h).2.2 x hx a List.mem_cons_self
  rw [List.takeWhile_append_of_pos fun x hx => decide_eq_true (hne x hx),
    List.takeWhile_cons_of_neg (by simp), List.append_nil]

theorem WellFormed.takeWhile_append_lineage (h : t.WellFormed) (ha : a ∈ t.lineage id) :
    ((t.lineage id).takeWhile fun x => x ≠ a) ++ t.lineage a = t.lineage id := by
  obtain ⟨e, f, he, hf⟩ := h.find?_of_mem_lineage ha
  obtain ⟨above, habove⟩ := h.lineage_suffix hf ha
  have hnodup := h.nodup_lineage id
  rw [← habove, h.lineage_eq_cons he] at hnodup ⊢
  rw [takeWhile_ne_append_cons hnodup]

theorem WellFormed.not_mem_lineage_of_mem_tail (h : t.WellFormed) (ha : a ∈ (t.lineage id).tail) :
    id ∉ t.lineage a := by
  intro hmem
  obtain ⟨-, f, -, hf⟩ := h.find?_of_mem_lineage (List.mem_of_mem_tail ha)
  have heq := h.mem_lineage_antisymm (List.mem_of_mem_tail ha) hmem
  have hnodup := h.nodup_lineage id
  rw [h.lineage_eq_cons hf] at hnodup
  exact (List.nodup_cons.1 hnodup).1 (heq ▸ ha)

theorem WellFormed.mem_tail_lineage (h : t.WellFormed) (ha : a ∈ t.lineage id) (hne : a ≠ id) :
    a ∈ (t.lineage id).tail := by
  obtain ⟨-, f, -, hf⟩ := h.find?_of_mem_lineage ha
  rw [h.lineage_eq_cons hf] at ha
  exact (List.mem_cons.1 ha).resolve_left hne

/-- A lineage has a block of every height between those of its ends. -/
theorem WellFormed.ancestorAt?_spec (h : t.WellFormed) {r : TreeEntry}
    (hr : t.find? t.root = some r) (he : t.find? id = some e) {height : Nat}
    (hlow : r.height ≤ height) (hhigh : height ≤ e.height) :
    ∃ a f, t.ancestorAt? id height = some a ∧ a ∈ t.lineage id ∧ t.find? a = some f ∧
      f.height = height := by
  have hex : ∃ a ∈ t.lineage id, (t.find? a).map TreeEntry.height = some height := by
    refine h.induction (P := fun b => ∀ e, t.find? b = some e → height ≤ e.height →
      ∃ a ∈ t.lineage b, (t.find? a).map TreeEntry.height = some height) ?_
      (fun b f hf hroot ih => ?_) he e he hhigh
    · intro e he hle
      rw [hr] at he
      cases he
      rw [h.lineage_root]
      exact ⟨t.root, List.mem_singleton_self _, by rw [hr, Option.map_some, le_antisymm hle hlow]⟩
    · intro e he hle
      rw [hf] at he
      cases he
      obtain ⟨p, hp, -, hh, -⟩ := h.link hf hroot
      rw [h.lineage_of_ne_root hf hroot]
      by_cases heq : height = f.height
      · exact ⟨b, List.mem_cons_self, by rw [hf, Option.map_some, heq]⟩
      · obtain ⟨a, ha, hah⟩ := ih p hp (by omega)
        exact ⟨a, List.mem_cons_of_mem _ ha, hah⟩
  unfold ancestorAt?
  obtain ⟨a, ha, hah⟩ := hex
  cases hfind : (t.lineage id).find? fun b => (t.find? b).map TreeEntry.height = some height with
  | none =>
    rw [List.find?_eq_none] at hfind
    exact absurd (decide_eq_true hah) (hfind a ha)
  | some b =>
    have hb := List.find?_some hfind
    obtain ⟨f, hf, hfh⟩ := Option.map_eq_some_iff.1 (of_decide_eq_true hb)
    exact ⟨b, f, rfl, List.mem_of_find?_eq_some hfind, hf, hfh⟩

/-! ### Weights -/

/-- A tree in which every block but the root adds to the weight. -/
def Weighted (t : ChainTree) : Prop :=
  ∀ id e, t.find? id = some e → id ≠ t.root → 1 ≤ e.tip.weight

omit [Sums] in
/-- Cumulative weights fall along a lineage, if none of the sums overflows. -/
theorem WellFormed.weight_lt_of_mem_lineage (h : @WellFormed _ .unbounded t) (hw : t.Weighted)
    {ea eb : TreeEntry} (hea : t.find? a = some ea) (heb : t.find? b = some eb)
    (hab : a ∈ t.lineage b) (hne : a ≠ b) : ea.cumulativeWeight < eb.cumulativeWeight := by
  refine h.induction (P := fun b => ∀ eb, t.find? b = some eb → a ∈ t.lineage b → a ≠ b →
    ea.cumulativeWeight < eb.cumulativeWeight) ?_ (fun b f hf hroot ih => ?_) heb eb heb hab hne
  · intro eb _ hmem hne
    rw [h.lineage_root, List.mem_singleton] at hmem
    exact absurd hmem hne
  · intro eb heb hmem hne
    rw [hf] at heb
    cases heb
    have hpos := hw b f hf hroot
    obtain ⟨p, hp, -, -, hcw⟩ := h.link hf hroot
    rw [Sums.addWeights_unbounded] at hcw
    rw [h.lineage_of_ne_root hf hroot] at hmem
    have hrest : a ∈ t.lineage f.parent := (List.mem_cons.1 hmem).resolve_left hne
    by_cases hap : a = f.parent
    · subst hap
      rw [hea] at hp
      cases hp
      omega
    · have := ih p hp hrest hap
      omega

omit [Sums] in
theorem weighted_ofRoot (tip : ChainTip) (w : Nat) : (ofRoot tip w).Weighted := by
  intro id e he hne
  rw [find?_ofRoot, if_neg (show id ≠ tip.id from hne)] at he
  cases he

theorem Weighted.graft {below : TreeEntry} (hw : t.Weighted)
    (hbelow : t.find? tip.parent = some below) (hpos : 1 ≤ tip.weight) :
    (t.graft tip below).Weighted := by
  intro id f hf hne
  obtain ⟨-, rfl⟩ | ⟨e, -, he, htip, -⟩ := find?_of_find?_graft hbelow hf
  · exact hpos
  · rw [htip]
    exact hw id e he hne

/-! ### Trees within trees -/

/-- All blocks of the first tree are in the second. -/
def Within (t u : ChainTree) : Prop :=
  ∀ id e, t.find? id = some e → ∃ f, u.find? id = some f ∧ f.tip.block = e.tip.block

omit [Crypto] [Sums] in
theorem Within.parent_eq {e f : TreeEntry} (h : f.tip.block = e.tip.block) :
    f.parent = e.parent := by
  rw [TreeEntry.parent, TreeEntry.parent, ChainTip.parent, ChainTip.parent, h]

omit [Crypto] [Sums] in
theorem Within.height_eq {e f : TreeEntry} (h : f.tip.block = e.tip.block) :
    f.height = e.height := by
  rw [TreeEntry.height, TreeEntry.height, ChainTip.height, ChainTip.height, h]

/-- No block but its root can be the root of the tree around it. -/
theorem WellFormed.ne_root_of_within (ht : t.WellFormed) (hu : u.WellFormed) (hin : t.Within u)
    (he : t.find? id = some e) (hne : id ≠ t.root) : id ≠ u.root := by
  rintro rfl
  obtain ⟨r, hr⟩ := ht.root_mem
  obtain ⟨f, hf, hfb⟩ := hin _ _ he
  obtain ⟨g, hg, hgb⟩ := hin _ _ hr
  have h1 := ht.height_lt_of_mem_lineage hr he (ht.root_mem_lineage he) (Ne.symm hne)
  have h2 := hu.height_lt_of_mem_lineage hf hg (hu.root_mem_lineage hg) hne
  rw [Within.height_eq hfb, Within.height_eq hgb] at h2
  omega

/-- **A lineage in the tree around goes on below the root.** -/
theorem WellFormed.lineage_eq_append (ht : t.WellFormed) (hu : u.WellFormed) (hin : t.Within u)
    (he : t.find? id = some e) :
    u.lineage id = t.lineage id ++ (u.lineage t.root).tail := by
  refine ht.induction (P := fun b => u.lineage b = t.lineage b ++ (u.lineage t.root).tail) ?_
    (fun b f hf hne ih => ?_) he
  · obtain ⟨r, hr⟩ := ht.root_mem
    obtain ⟨g, hg, -⟩ := hin _ _ hr
    rw [ht.lineage_root]
    by_cases hroot : t.root = u.root
    · rw [hroot, hu.lineage_root]
      rfl
    · rw [hu.lineage_of_ne_root hg hroot]
      rfl
  · obtain ⟨g, hg, hgb⟩ := hin _ _ hf
    have hroot := ht.ne_root_of_within hu hin hf hne
    rw [ht.lineage_of_ne_root hf hne, hu.lineage_of_ne_root hg hroot, Within.parent_eq hgb, ih,
      List.cons_append]

theorem WellFormed.mem_lineage_within_iff (ht : t.WellFormed) (hu : u.WellFormed)
    (hin : t.Within u) {ea eb : TreeEntry} (hea : t.find? a = some ea)
    (heb : t.find? b = some eb) : a ∈ u.lineage b ↔ a ∈ t.lineage b := by
  rw [ht.lineage_eq_append hu hin heb, List.mem_append]
  refine ⟨fun h => h.resolve_right fun htail => ?_, Or.inl⟩
  -- the tail holds what lies below the root, and nothing of the tree lies there
  refine hu.not_mem_lineage_of_mem_tail htail ?_
  rw [ht.lineage_eq_append hu hin hea]
  exact List.mem_append_left _ (ht.root_mem_lineage hea)

/-- The ways down from the other blocks stay, whatever height the new block has. -/
theorem WellFormed.lineageFrom_graft (h : t.WellFormed) {below : TreeEntry}
    (hnew : t.find? tip.id = none) (hbelow : t.find? tip.parent = some below)
    (he : t.find? id = some e) (steps : Nat) :
    (t.graft tip below).lineageFrom steps id = t.lineageFrom steps id := by
  induction steps generalizing id e with
  | zero =>
    obtain ⟨f, hf, -⟩ := find?_graft_of_find? hnew hbelow he
    unfold lineageFrom
    rw [hf, he]
    rfl
  | succ n ih =>
    obtain ⟨f, hf, htip, -⟩ := find?_graft_of_find? hnew hbelow he
    by_cases hroot : id = t.root
    · subst hroot
      exact (lineageFrom_root hf _).trans (lineageFrom_root he _).symm
    · obtain ⟨p, hp, -⟩ := h.link he hroot
      have hparent : f.parent = e.parent := by rw [TreeEntry.parent, TreeEntry.parent, htip]
      unfold lineageFrom
      simp only [hf, he, root_graft, if_neg hroot, hparent, ih hp]

theorem WellFormed.lineage_graft (h : t.WellFormed) {below : TreeEntry}
    (hnew : t.find? tip.id = none) (hbelow : t.find? tip.parent = some below)
    (he : t.find? id = some e) : (t.graft tip below).lineage id = t.lineage id := by
  obtain ⟨f, hf, htip, -⟩ := find?_graft_of_find? hnew hbelow he
  rw [lineage, lineage, h.lineageFrom_graft hnew hbelow he, hf, he, Option.map_some,
    Option.map_some, TreeEntry.height, TreeEntry.height, htip]

theorem WellFormed.lineage_graft_self (h : t.WellFormed) {below : TreeEntry}
    (hnew : t.find? tip.id = none) (hbelow : t.find? tip.parent = some below)
    (hheight : tip.height = below.height + 1) :
    (t.graft tip below).lineage tip.id = tip.id :: t.lineage tip.parent := by
  have hg := h.graft hnew hbelow hheight
  have hne : tip.id ≠ (t.graft tip below).root := by
    intro hroot
    obtain ⟨r, hr⟩ := h.root_mem
    rw [hroot, root_graft, hr] at hnew
    cases hnew
  rw [hg.lineage_of_ne_root (find?_graft_self t tip below) hne]
  exact congrArg _ (h.lineage_graft hnew hbelow hbelow)

end ChainTree

end LedgerChain
