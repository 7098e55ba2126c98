import LedgerChain.Proofs.Node.Kept
import LedgerChain.Proofs.Node.Start

/-!
# The tree of a node that starts

The tree of a node that starts consists of the stored finalized block and of all stored blocks above
it (`exists_restoreTree`).  It is built level by level.  No level between the root and a stored
block is empty, so the first empty level is the end; and every level has its own row in the store's
index, so there are as many steps as needed.

Faults can make a start fail, but they never change what it leads to (`restoreTree_withoutFaults`).
-/

namespace LedgerChain

namespace Node

variable [Crypto] {R : ChainTip → ChainTip → Prop} {consensus : ConsensusParams} {engine : Engine}
  {genesis : ChainTip} {s s' : Store} {t t' u : ChainTree} {id : BlockId} {e : TreeEntry}
  {tip root : ChainTip} {reached reached' : BlockId → Prop}

/-! ### Faults only lead to failures -/

omit [Crypto] in
theorem load_of_find? {sb : StoredBlock} (hfaults : s.faults = {})
    (h : s.blocks.find? id = some sb) : s.load id = .ok ⟨sb.block, sb.state, 0⟩ := by
  simp [Store.load, Store.getBlock, Store.getState, Store.read, hfaults, h]

omit [Crypto] in
theorem load_withoutFaults (h : s.load id = .ok tip) :
    Store.load { s with faults := {} } id = .ok tip := by
  obtain ⟨sb, hsb, rfl⟩ := load_ok_cases h
  exact load_of_find? rfl hsb

theorem attachStored_withoutFaults (h : attachStored engine s t id = .ok t') :
    attachStored engine { s with faults := {} } t id = .ok t' := by
  rw [attachStored] at h ⊢
  cases hload : s.load id with
  | error e =>
    rw [hload] at h
    cases h
  | ok tip =>
    rw [hload] at h
    rw [load_withoutFaults hload]
    exact h

theorem attachAll_withoutFaults {ids : List BlockId} (h : attachAll engine s t ids = .ok t') :
    attachAll engine { s with faults := {} } t ids = .ok t' := by
  induction ids generalizing t with
  | nil => exact h
  | cons id rest ih =>
    rw [attachAll] at h ⊢
    cases hone : attachStored engine s t id with
    | error e =>
      rw [hone] at h
      cases h
    | ok t₁ =>
      rw [hone] at h
      rw [attachStored_withoutFaults hone]
      exact ih h

theorem attachLevels_withoutFaults {levels height : Nat}
    (h : attachLevels engine s levels height t = .ok t') :
    attachLevels engine { s with faults := {} } levels height t = .ok t' := by
  induction levels generalizing height t with
  | zero => exact h
  | succ levels ih =>
    rw [attachLevels] at h ⊢
    cases hlevel : s.getLevel height with
    | error e =>
      rw [hlevel] at h
      cases h
    | ok ids =>
      have hclean : Store.getLevel { s with faults := {} } height = .ok ids :=
        Store.read_eq_ok_iff.2 ⟨rfl, (Store.read_eq_ok_iff.1 hlevel).2⟩
      rw [hlevel] at h
      rw [hclean]
      cases ids with
      | nil => exact h
      | cons id rest =>
        simp only at h ⊢
        cases hall : attachAll engine s t (id :: rest) with
        | error e =>
          rw [hall] at h
          cases h
        | ok t₁ =>
          rw [hall] at h
          rw [attachAll_withoutFaults hall]
          exact ih h

theorem restoreTree_withoutFaults (h : restoreTree engine s root = .ok t) :
    restoreTree engine { s with faults := {} } root = .ok t :=
  attachLevels_withoutFaults h

/-! ### Attaching -/

/-- A tree with the blocks above a root that were reached so far. -/
structure Restored (u : ChainTree) (root : BlockId) (reached : BlockId → Prop) (t : ChainTree) :
    Prop where
  wellFormed : t.WellFormed
  root_eq : t.root = root
  part : t.Part u
  mem_iff : ∀ id, (∃ e, t.find? id = some e) ↔ root ∈ u.lineage id ∧ reached id

theorem Restored.congr (h : Restored u id reached t)
    (hsame : ∀ a, id ∈ u.lineage a → (reached a ↔ reached' a)) : Restored u id reached' t where
  wellFormed := h.wellFormed
  root_eq := h.root_eq
  part := h.part
  mem_iff a := by
    rw [h.mem_iff]
    exact and_congr_right (hsame a)

theorem Restored.attach {r : BlockId} {below : TreeEntry} (harch : Archive R genesis s u)
    (ht : Restored u r reached t) (he : u.find? id = some e) (hroot : id ≠ u.root) (hne : id ≠ r)
    (hbelow : t.find? e.parent = some below) :
    ∃ forked t', t.attach e.tip = .ok (forked, t') ∧
      Restored u r (fun a => reached a ∨ a = id) t' := by
  have hu := harch.wellFormed
  have hid : e.tip.id = id := hu.id_eq he
  -- a block that was attached before stays as it is
  cases hknown : t.find? id with
  | some g =>
    have hin : t.contains e.tip.id = true := by
      rw [hid]
      exact ChainTree.contains_iff.2 ⟨g, hknown⟩
    refine ⟨false, t, by rw [ChainTree.attach, if_pos hin], ht.congr fun a _ => ?_⟩
    refine ⟨Or.inl, fun h => h.elim (fun hold => hold) fun heq => ?_⟩
    rw [heq]
    exact ((ht.mem_iff id).1 ⟨g, hknown⟩).2
  | none =>
    rw [← hid] at hknown
    have hheight : e.tip.height = below.height + 1 := by
      obtain ⟨q, hq, hblock, -⟩ := ht.part e.parent below hbelow
      obtain ⟨p, hp, -, hph, -⟩ := hu.link he hroot
      rw [hp] at hq
      cases hq
      exact hph.trans (congrArg (· + 1) (ChainTree.Within.height_eq (e := below) (f := q) hblock))
    have habove : r ∈ u.lineage id := by
      rw [hu.lineage_of_ne_root he hroot]
      exact List.mem_cons_of_mem _ ((ht.mem_iff e.parent).1 ⟨below, hbelow⟩).1
    obtain ⟨forked, hgraft⟩ := ChainTree.attach_eq_graft hknown hbelow hheight
    refine ⟨forked, _, hgraft, ht.wellFormed.graft hknown hbelow hheight, ht.root_eq,
      ht.part.graft_left hbelow (hid.symm ▸ he) rfl, fun a => ?_⟩
    constructor
    · rintro ⟨b, hb⟩
      obtain ⟨rfl, -⟩ | ⟨c, -, hc, -⟩ := ChainTree.find?_of_find?_graft hbelow hb
      · rw [hid]
        exact ⟨habove, Or.inr rfl⟩
      · exact ⟨((ht.mem_iff a).1 ⟨c, hc⟩).1, Or.inl ((ht.mem_iff a).1 ⟨c, hc⟩).2⟩
    · rintro ⟨ha, hreach | rfl⟩
      · obtain ⟨c, hc⟩ := (ht.mem_iff a).2 ⟨ha, hreach⟩
        obtain ⟨b, hb, -⟩ := ChainTree.find?_graft_of_find? hknown hbelow hc
        exact ⟨b, hb⟩
      · exact ⟨_, by rw [ChainTree.find?_graft, if_pos hid.symm]⟩

theorem Restored.attachStored {r : BlockId} (hR : Linking consensus R)
    (harch : Archive R genesis s u) (hfaults : s.faults = {}) (ht : Restored u r reached t)
    (he : u.find? id = some e) (hroot : id ≠ u.root) (hne : id ≠ r) (hparent : reached e.parent) :
    ∃ t', attachStored (.ofRule consensus.sealRule) s t id = .ok t' ∧
      Restored u r (fun a => reached a ∨ a = id) t' := by
  have hload := load_of_find? hfaults (harch.find?_stored he)
  simp only [Node.attachStored, hload]
  cases hbelow : t.find? e.parent with
  | none =>
    -- the parent is not above the root, so neither is the block
    have hout : t.contains e.parent = false := ChainTree.find?_eq_none_iff.1 hbelow
    refine ⟨t, by simp [ChainTip.parent, show e.tip.block.parent = e.parent from rfl, hout], ?_⟩
    refine ht.congr fun a ha => ⟨Or.inl, fun h => h.resolve_right ?_⟩
    rintro rfl
    rw [harch.wellFormed.lineage_of_ne_root he hroot, List.mem_cons] at ha
    obtain ⟨b, hb⟩ := (ht.mem_iff e.parent).2 ⟨ha.resolve_left (Ne.symm hne), hparent⟩
    rw [hbelow] at hb
    cases hb
  | some below =>
    have hin : t.contains e.parent = true := ChainTree.contains_iff.2 ⟨below, hbelow⟩
    obtain ⟨forked, t', hatt, ht'⟩ := ht.attach harch he hroot hne hbelow
    obtain ⟨p, -, hrel⟩ := harch.exists_parent he hroot
    have hweight :
        (Engine.ofRule consensus.sealRule).weight e.tip.block.header = .ok e.tip.weight :=
      (hR.follows hrel).weight_eq
    refine ⟨t', ?_, ht'⟩
    simp only [ChainTip.parent, ChainTip.header, show e.tip.block.parent = e.parent from rfl, hin,
      hweight, hatt, Bool.not_true, Bool.false_eq_true, if_false]

theorem Restored.attachAll {r : BlockId} (hR : Linking consensus R)
    (harch : Archive R genesis s u) (hfaults : s.faults = {}) {ids : List BlockId}
    (hids : ∀ id ∈ ids, ∃ e, u.find? id = some e ∧ id ≠ u.root ∧ id ≠ r ∧ reached e.parent)
    (ht : Restored u r reached t) :
    ∃ t', attachAll (.ofRule consensus.sealRule) s t ids = .ok t' ∧
      Restored u r (fun a => reached a ∨ a ∈ ids) t' := by
  induction ids generalizing t reached with
  | nil =>
    refine ⟨t, rfl, ht.congr fun a _ => ⟨Or.inl, fun h => h.resolve_right ?_⟩⟩
    exact List.not_mem_nil
  | cons id rest ih =>
    obtain ⟨e, he, hroot, hne, hparent⟩ := hids id List.mem_cons_self
    obtain ⟨t₁, hone, ht₁⟩ := ht.attachStored hR harch hfaults he hroot hne hparent
    obtain ⟨t₂, hall, ht₂⟩ := ih (fun a ha => by
      obtain ⟨f, hf, hroot', hne', hparent'⟩ := hids a (List.mem_cons_of_mem _ ha)
      exact ⟨f, hf, hroot', hne', Or.inl hparent'⟩) ht₁
    refine ⟨t₂, by rw [Node.attachAll, hone]; exact hall, ht₂.congr fun a _ => ?_⟩
    rw [List.mem_cons, or_assoc]

/-! ### Level by level -/

/-- The blocks of the archive below a height. -/
def Below (u : ChainTree) (height : Nat) (id : BlockId) : Prop :=
  ∃ e, u.find? id = some e ∧ e.height < height

omit [Crypto] in
/-- A height with blocks counts among the heights from it on, and not among those above it. -/
theorem countP_above_lt {l : List Nat} {height : Nat} (h : height ∈ l) :
    (l.countP fun k => height + 1 ≤ k) < l.countP fun k => height ≤ k := by
  induction l with
  | nil => cases h
  | cons k rest ih =>
    have hrest : (rest.countP fun k => height + 1 ≤ k) ≤ rest.countP fun k => height ≤ k :=
      List.countP_mono_left fun x _ hx => by simp only [decide_eq_true_eq] at hx ⊢; omega
    simp only [List.countP_cons, decide_eq_true_eq]
    rcases List.mem_cons.1 h with rfl | h
    · rw [if_neg (by omega), if_pos (Nat.le_refl _)]
      omega
    · have := ih h
      split
      · rw [if_pos (by omega)]
        omega
      · omega

/-- A level without stored blocks is above all blocks that lie above the root. -/
theorem below_of_level_eq_nil {r a : BlockId} {height : Nat} (harch : Archive R genesis s u)
    (hs : s.Indexed) {er : TreeEntry} (hr : u.find? r = some er) (hheight : er.height < height)
    (hlevel : s.level height = []) (ha : r ∈ u.lineage a) : Below u height a := by
  have hu := harch.wellFormed
  obtain ⟨-, e, -, he⟩ := hu.find?_of_mem_lineage ha
  refine ⟨e, he, ?_⟩
  by_contra hge
  obtain ⟨r₀, hr₀⟩ := hu.root_mem
  have hlow : r₀.height ≤ er.height := by
    by_cases hsame : u.root = r
    · rw [hsame, hr] at hr₀
      cases hr₀
      exact Nat.le_refl _
    · exact Nat.le_of_lt (hu.height_lt_of_mem_lineage hr₀ hr (hu.root_mem_lineage hr) hsame)
  -- the lineage of a block this high has a block on the level
  obtain ⟨b, f, -, -, hf, hfh⟩ := hu.ancestorAt?_spec hr₀ he (by omega : r₀.height ≤ height)
    (Nat.le_of_not_lt hge)
  have hmem : b ∈ s.level height := hs.mem_level.2 ⟨_, harch.find?_stored hf, hfh⟩
  rw [hlevel] at hmem
  cases hmem

theorem exists_of_mem_level {height : Nat} {r a : BlockId} {er : TreeEntry}
    (harch : Archive R genesis s u) (hs : s.Indexed) (hr : u.find? r = some er)
    (hheight : er.height < height) (ha : a ∈ s.level height) :
    ∃ e, u.find? a = some e ∧ a ≠ u.root ∧ a ≠ r ∧ Below u height e.parent := by
  have hu := harch.wellFormed
  obtain ⟨sb, hsb, hsbh⟩ := hs.mem_level.1 ha
  obtain ⟨e, he, hblock, -⟩ := harch.of_find?_stored hsb
  have heh : e.height = height := by
    rw [← hsbh, ← hblock]
    rfl
  -- the root of the archive is no higher than the given block
  have hroot : a ≠ u.root := by
    rintro rfl
    by_cases hsame : u.root = r
    · rw [hsame, hr] at he
      cases he
      omega
    · have := hu.height_lt_of_mem_lineage he hr (hu.root_mem_lineage hr) hsame
      omega
  obtain ⟨p, hp, -, hph, -⟩ := hu.link he hroot
  refine ⟨e, he, hroot, ?_, p, hp, by omega⟩
  rintro rfl
  rw [hr] at he
  cases he
  omega

theorem below_succ_iff {height : Nat} {a : BlockId} (harch : Archive R genesis s u)
    (hs : s.Indexed) : Below u height a ∨ a ∈ s.level height ↔ Below u (height + 1) a := by
  constructor
  · rintro (⟨e, he, hlt⟩ | hmem)
    · exact ⟨e, he, by omega⟩
    · obtain ⟨sb, hsb, hsbh⟩ := hs.mem_level.1 hmem
      obtain ⟨e, he, hblock, -⟩ := harch.of_find?_stored hsb
      refine ⟨e, he, ?_⟩
      rw [← hsbh, ← hblock]
      exact Nat.lt_succ_self _
  · rintro ⟨e, he, hlt⟩
    by_cases hh : e.height = height
    · exact Or.inr (hs.mem_level.2 ⟨_, harch.find?_stored he, hh⟩)
    · exact Or.inl ⟨e, he, by omega⟩

omit [Crypto] in
theorem mem_keys_of_level_ne_nil {height : Nat} (h : s.level height ≠ []) :
    height ∈ s.levels.keys := by
  rw [Table.mem_keys_iff, Table.contains_iff]
  rw [Store.level] at h
  cases hfind : s.levels.find? height with
  | none =>
    rw [hfind] at h
    exact absurd rfl h
  | some ids => exact ⟨ids, rfl⟩

/-- **Attaching the levels above those reached reaches all blocks above the root**, if there are
more steps than rows with these heights. -/
theorem Restored.attachLevels {r : BlockId} (hR : Linking consensus R)
    (harch : Archive R genesis s u) (hs : s.Indexed) (hfaults : s.faults = {}) {er : TreeEntry}
    (hr : u.find? r = some er) {levels height : Nat} (hheight : er.height < height)
    (hsteps : (s.levels.keys.countP fun k => height ≤ k) < levels)
    (ht : Restored u r (Below u height) t) :
    ∃ t', attachLevels (.ofRule consensus.sealRule) s levels height t = .ok t' ∧
      Restored u r (fun _ => True) t' := by
  induction levels generalizing height t with
  | zero => exact absurd hsteps (Nat.not_lt_zero _)
  | succ levels ih =>
    have hget : s.getLevel height = .ok (s.level height) :=
      Store.read_eq_ok_iff.2 ⟨by rw [hfaults], rfl⟩
    rw [Node.attachLevels, hget]
    cases hlevel : s.level height with
    | nil =>
      refine ⟨t, rfl, ht.congr fun a ha => ⟨fun _ => trivial, fun _ => ?_⟩⟩
      exact below_of_level_eq_nil harch hs hr hheight hlevel ha
    | cons id rest =>
      -- the blocks of this level have parents on the level before
      obtain ⟨t₁, hall, ht₁⟩ := ht.attachAll hR harch hfaults fun a ha =>
        exists_of_mem_level harch hs hr hheight ha
      have hnext : Restored u r (Below u (height + 1)) t₁ :=
        ht₁.congr fun a _ => below_succ_iff harch hs
      -- and there is a row less to go
      have hrow : height ∈ s.levels.keys := by
        refine mem_keys_of_level_ne_nil ?_
        rw [hlevel]
        exact List.cons_ne_nil _ _
      have hfewer := countP_above_lt hrow
      obtain ⟨t₂, hrest, ht₂⟩ := ih (by omega) (by omega) hnext
      rw [hlevel] at hall
      exact ⟨t₂, by simp only [hall]; exact hrest, ht₂⟩

/-- **The tree of a stored block consists of all stored blocks above it**, with the states that are
stored and the weights that the seals say. -/
theorem exists_restoreTree (hR : Linking consensus R) (harch : Archive R genesis s u)
    (hs : s.Indexed) (hfaults : s.faults = {}) (he : u.find? root.id = some e)
    (hblock : e.tip.block = root.block) (hstate : e.tip.state = root.state) :
    ∃ t, restoreTree (.ofRule consensus.sealRule) s root = .ok t ∧
      Restored u root.id (fun _ => True) t := by
  have hu := harch.wellFormed
  have hheight : e.height = root.height := congrArg Block.height hblock
  refine Restored.attachLevels hR harch hs hfaults he (by omega) ?_ ?_
  · refine Nat.lt_succ_of_le (List.countP_le_length.trans ?_)
    rw [Table.keys, List.length_map]
    exact Nat.le_refl _
  · refine ⟨ChainTree.wellFormed_ofRoot root 0, rfl, fun a f hf => ?_, fun a => ?_⟩
    · rw [ChainTree.find?_ofRoot] at hf
      split at hf
      · rename_i ha
        cases hf
        subst ha
        exact ⟨e, he, hblock, hstate, fun hne => absurd rfl hne⟩
      · cases hf
    · constructor
      · rintro ⟨f, hf⟩
        rw [ChainTree.find?_ofRoot] at hf
        split at hf
        · rename_i ha
          rw [ha]
          exact ⟨hu.self_mem_lineage he, e, he, by omega⟩
        · cases hf
      · rintro ⟨ha, f, hf, hlt⟩
        have hsame : a = root.id := by
          by_contra hne
          have := hu.height_lt_of_mem_lineage he hf ha (Ne.symm hne)
          omega
        exact ⟨_, by rw [ChainTree.find?_ofRoot, if_pos hsame]⟩

end Node

end LedgerChain
