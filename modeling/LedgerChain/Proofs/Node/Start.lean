import LedgerChain.Node.Start
import LedgerChain.Proofs.Node.AtBest

/-!
# Starting on a store

A start writes little: the genesis block, the two pointers to it, and a repaired canonical pointer
(`BootStep`, `boot_start`).  From a store that comes from its journal it leads to a sound node, at
its best (`sound_of_start`).  What exactly is in the tree of the node is the subject of
`LedgerChain.Proofs.Node.Restore`.
-/

namespace LedgerChain

namespace Node

variable [Crypto] {engine : Engine} {params : Params} {initial : State} {s s' : Store}
  {pool : Mempool} {n : Node} {t t' : ChainTree} {id : BlockId} {tip root : ChainTip}

/-! ### Writes of a start -/

/-- A write that a start can make. -/
inductive BootStep (genesis : ChainTip) : Store → Store → Prop
  | genesis (s : Store) : BootStep genesis s (s.addBlock genesis.block genesis.state)
  | finalized {s : Store} (h : s.blocks.contains genesis.id = true) :
      BootStep genesis s (s.point .finalized genesis.id)
  | canonical {s : Store} {id : BlockId} (h : s.blocks.contains id = true) :
      BootStep genesis s (s.point .canonical id)

/-- Some writes of a start. -/
abbrev Boot (genesis : ChainTip) : Store → Store → Prop := Relation.ReflTransGen (BootStep genesis)

theorem BootStep.later {genesis : ChainTip} (h : BootStep genesis s s') : s.Later s' := by
  cases h with
  | genesis => exact .single ⟨.block _ _, rfl⟩
  | finalized _ => exact .single ⟨.pointer .finalized genesis.id, rfl⟩
  | @canonical id _ => exact .single ⟨.pointer .canonical id, rfl⟩

theorem Boot.later {genesis : ChainTip} (h : Boot genesis s s') : s.Later s' := by
  induction h with
  | refl => exact .refl
  | tail _ hstep ih => exact ih.trans hstep.later

theorem Boot.faults_eq {genesis : ChainTip} (h : Boot genesis s s') : s'.faults = s.faults := by
  induction h with
  | refl => rfl
  | tail _ hstep ih =>
    refine Eq.trans ?_ ih
    cases hstep with
    | genesis => exact Store.faults_addBlock _ _ _
    | finalized _ => exact Store.faults_point _ _ _
    | canonical _ => exact Store.faults_point _ _ _

theorem boot_write (params : Params) (initial : State) (s : Store) :
    Boot (Genesis.tip params initial) s (Genesis.write params initial s).2 := by
  simp only [Genesis.write]
  split
  · exact .refl
  · rename_i stored hput
    have h₁ : Boot (Genesis.tip params initial) s stored := by
      rw [(Store.put_eq_ok_iff.1 hput).2]
      exact .single (.genesis s)
    split
    · exact h₁
    · rename_i pointed hcan
      obtain ⟨-, hin, heq⟩ := Store.setPointer_eq_ok_iff.1 hcan
      have h₂ : Boot (Genesis.tip params initial) s pointed := by
        rw [heq]
        exact h₁.tail (.canonical hin)
      split
      · exact h₂
      · rename_i done hfin
        obtain ⟨-, hin, heq⟩ := Store.setPointer_eq_ok_iff.1 hfin
        have h₃ : Boot (Genesis.tip params initial) s done := by
          rw [heq]
          exact h₂.tail (.finalized hin)
        split <;> exact h₃

theorem boot_loadRoot (params : Params) (initial : State) (s : Store) :
    Boot (Genesis.tip params initial) s (loadRoot params initial s).2 := by
  rw [loadRoot]
  split
  · exact .refl
  · split <;> exact .refl
  · have hboot := boot_write params initial s
    rcases hres : Genesis.write params initial s with ⟨_ | _, s'⟩ <;> rw [hres] at hboot <;>
      exact hboot

theorem boot_repairPointer {genesis : ChainTip} (h : repairPointer s id = .ok s') :
    Boot genesis s s' := by
  rw [repairPointer] at h
  split at h
  · cases h
  · split at h
    · cases h
      exact .refl
    · obtain ⟨-, hin, heq⟩ := Store.setPointer_eq_ok_iff.1 h
      rw [heq]
      exact .single (.canonical hin)

theorem boot_start (params : Params) (s : Store) (pool : Mempool) (initial : State) :
    Boot (Genesis.tip params initial) s (start params s pool initial).2 := by
  have hroot := boot_loadRoot params initial s
  rw [start]
  rcases hres : loadRoot params initial s with ⟨_ | root, s₁⟩ <;> rw [hres] at hroot
  · exact hroot
  · simp only
    split
    · exact hroot
    · split
      · exact hroot
      · rename_i s₂ hrepair
        exact hroot.trans (boot_repairPointer hrepair)

/-! ### What a start consists of -/

theorem start_ok_cases (h : start params s pool initial = (.ok n, s')) :
    ∃ root s₁ t, loadRoot params initial s = (.ok root, s₁) ∧
      restoreTree (.ofRule params.consensus.sealRule) s₁ root = .ok t ∧
      repairPointer s₁ (ForkChoice.ofTree params.run.finalityDepth t).best = .ok s' ∧
      n = .ofForkChoice params s' pool (.ofTree params.run.finalityDepth t) := by
  rw [start] at h
  rcases hres : loadRoot params initial s with ⟨_ | root, s₁⟩ <;> rw [hres] at h
  · cases h
  · simp only at h
    split at h
    · cases h
    · rename_i t ht
      split at h
      · cases h
      · rename_i s₂ hrepair
        cases h
        exact ⟨root, s₁, t, rfl, ht, hrepair, rfl⟩

theorem params_of_start (h : start params s pool initial = (.ok n, s')) : n.params = params := by
  obtain ⟨root, s₁, t, -, -, -, rfl⟩ := start_ok_cases h
  rfl

omit [Crypto] in
theorem load_ok_cases (h : s.load id = .ok tip) :
    ∃ sb, s.blocks.find? id = some sb ∧ tip = ⟨sb.block, sb.state, 0⟩ := by
  have hsome : ∀ {α β : Type} {c : Prop} [Decidable c] {o : Option α} {g : α → β} {b : β},
      (if c then none else o.map g) = some b → ∃ a, o = some a ∧ b = g a := by
    intro α β c _ o g b hb
    split at hb
    · cases hb
    · obtain ⟨a, ha, hab⟩ := Option.map_eq_some_iff.1 hb
      exact ⟨a, ha, hab.symm⟩
  rw [Store.load] at h
  split at h
  · cases h
  · cases h
  · rename_i block hblock
    split at h
    · cases h
    · cases h
    · rename_i state hstate
      cases h
      obtain ⟨sb, hsb, rfl⟩ := hsome (Store.read_eq_ok_iff.1 hblock).2
      obtain ⟨sb', hsb', rfl⟩ := hsome (Store.read_eq_ok_iff.1 hstate).2
      rw [hsb] at hsb'
      cases hsb'
      exact ⟨sb, hsb, rfl⟩

theorem write_ok_cases (h : Genesis.write params initial s = (.ok tip, s')) :
    tip = Genesis.tip params initial ∧
      s' = ((s.addBlock tip.block tip.state).point .canonical tip.id).point .finalized tip.id := by
  simp only [Genesis.write] at h
  split at h
  · cases h
  rename_i stored hput
  split at h
  · cases h
  rename_i pointed hcan
  split at h
  · cases h
  rename_i done hset
  split at h
  · cases h
  cases h
  obtain ⟨-, -, rfl⟩ := Store.setPointer_eq_ok_iff.1 hset
  obtain ⟨-, -, rfl⟩ := Store.setPointer_eq_ok_iff.1 hcan
  obtain ⟨-, rfl⟩ := Store.put_eq_ok_iff.1 hput
  exact ⟨rfl, rfl⟩

theorem loadRoot_ok_cases (h : loadRoot params initial s = (.ok root, s')) :
    (∃ id, s.finalized = some id ∧ s.load id = .ok root ∧ s' = s) ∨
      (s.finalized = none ∧ root = Genesis.tip params initial ∧
        s' = ((s.addBlock root.block root.state).point .canonical root.id).point
          .finalized root.id) := by
  rw [loadRoot] at h
  split at h
  · cases h
  · rename_i id hid
    have hfin : s.finalized = some id := (Store.read_eq_ok_iff.1 hid).2
    split at h
    · cases h
    · rename_i tip htip
      cases h
      exact Or.inl ⟨id, hfin, htip, rfl⟩
  · rename_i hnone
    have hfin : s.finalized = none := (Store.read_eq_ok_iff.1 hnone).2
    split at h
    · cases h
    · rename_i tip s₁ hwrite
      cases h
      exact Or.inr ⟨hfin, write_ok_cases hwrite⟩

/-- A stored block is attached with the weight that its seal says, or left out. -/
theorem attachStored_ok_cases (h : attachStored engine s t id = .ok t') :
    ∃ sb, s.blocks.find? id = some sb ∧
      (t' = t ∨ ∃ weight below, engine.weight sb.block.header = .ok weight ∧
        t.Fits ⟨sb.block, sb.state, weight⟩ below ∧
        t' = t.graft ⟨sb.block, sb.state, weight⟩ below) := by
  rw [attachStored] at h
  split at h
  · cases h
  · rename_i tip hload
    obtain ⟨sb, hsb, rfl⟩ := load_ok_cases hload
    refine ⟨sb, hsb, ?_⟩
    split at h
    · cases h
      exact Or.inl rfl
    · split at h
      · cases h
      · rename_i weight hweight
        split at h
        · cases h
        · rename_i forked t₁ hattach
          cases h
          rcases ChainTree.attach_ok_cases hattach with ⟨-, rfl⟩ |
            ⟨below, hfresh, hbelow, hheight, rfl⟩
          · exact Or.inl rfl
          · exact Or.inr ⟨weight, below, hweight, ⟨hfresh, hbelow, hheight⟩, rfl⟩

theorem attachLevels_induct {P : ChainTree → Prop} {levels height : Nat}
    (step : ∀ {t t' : ChainTree} {h : Nat} {id : BlockId}, height ≤ h → id ∈ s.level h → P t →
      attachStored engine s t id = .ok t' → P t')
    (ht : P t) (h : attachLevels engine s levels height t = .ok t') : P t' := by
  -- first for the blocks of one level, then by induction on the levels left
  have hall : ∀ {ids : List BlockId} {t t' : ChainTree} {h : Nat}, height ≤ h →
      (∀ id ∈ ids, id ∈ s.level h) → P t → attachAll engine s t ids = .ok t' → P t' := by
    intro ids
    induction ids with
    | nil =>
      intro t t' h _ _ ht hatt
      cases hatt
      exact ht
    | cons id rest ih =>
      intro t t' h hle hids ht hatt
      rw [attachAll] at hatt
      split at hatt
      · cases hatt
      · rename_i t₁ hone
        exact ih hle (fun a ha => hids a (List.mem_cons_of_mem _ ha))
          (step hle (hids id List.mem_cons_self) ht hone) hatt
  induction levels generalizing t height with
  | zero =>
    cases h
    exact ht
  | succ levels ih =>
    rw [attachLevels] at h
    split at h
    · cases h
    · cases h
      exact ht
    · rename_i ids _ hlevel
      have heq : s.level height = ids := (Store.read_eq_ok_iff.1 hlevel).2
      split at h
      · cases h
      · rename_i t₁ hone
        have ht₁ := hall (Nat.le_refl height) (fun id hid => heq ▸ hid) ht hone
        refine ih (fun hle => step (by omega)) ht₁ h (fun hle => hall (by omega))

/-! ### Soundness -/

theorem Boot.weighed (h : Boot (Genesis.tip params initial) s s') (hs : s.Weighed engine) :
    s'.Weighed engine := by
  induction h with
  | refl => exact hs
  | tail _ hstep ih =>
    cases hstep with
    | genesis => exact ih.addBlock _ fun hne => absurd rfl hne
    | finalized _ => exact ih.point _ _
    | canonical _ => exact ih.point _ _

/-- **A node that starts on a store that comes from its journal is sound, and at its best.** -/
theorem sound_of_start (hj : s.Journaled)
    (hw : s.Weighed (.ofRule params.consensus.sealRule))
    (h : start params s pool initial = (.ok n, s')) : n.Sound ∧ n.AtBest ∧ n.store = s' := by
  obtain ⟨root, s₁, t, hroot, ht, hrepair, rfl⟩ := start_ok_cases h
  have hboot₁ := boot_loadRoot params initial s
  have hboot := boot_start params s pool initial
  rw [hroot] at hboot₁
  rw [h] at hboot
  have hj₁ : s₁.Journaled := hboot₁.later.journaled hj
  have hw₁ : s₁.Weighed (.ofRule params.consensus.sealRule) := hboot₁.weighed hw
  -- the root was written, by an earlier session or right now
  have hrootw : .block root.block root.state ∈ s₁.journal := by
    rcases loadRoot_ok_cases hroot with ⟨id, -, hload, rfl⟩ | ⟨-, -, rfl⟩
    · obtain ⟨sb, hsb, rfl⟩ := load_ok_cases hload
      exact hj₁.mem_journal hsb
    · simp
  have htree : t.WellFormed ∧ t.Weighted ∧ ∀ id e, t.find? id = some e →
      .block e.tip.block e.tip.state ∈ s₁.journal := by
    refine attachLevels_induct (P := fun t => t.WellFormed ∧ t.Weighted ∧ ∀ id e,
      t.find? id = some e → .block e.tip.block e.tip.state ∈ s₁.journal) ?_ ?_ ht
    · rintro t t' height id hheight hid ⟨hwf, hweighted, hwritten⟩ hatt
      obtain ⟨sb, hsb, rfl | ⟨weight, below, hweight, hfits, rfl⟩⟩ := attachStored_ok_cases hatt
      · exact ⟨hwf, hweighted, hwritten⟩
      -- blocks of a level above the root have a positive weight
      · obtain ⟨sb', hsb', hh⟩ := hj₁.indexed.mem_level.1 hid
        rw [hsb] at hsb'
        cases hsb'
        obtain ⟨w, hw', hpos⟩ := hw₁ id sb hsb (by omega)
        rw [hweight] at hw'
        cases hw'
        refine ⟨hwf.graft hfits.fresh hfits.on_tree hfits.height_eq,
          hweighted.graft hfits.on_tree hpos, fun a e he => ?_⟩
        obtain ⟨-, rfl⟩ | ⟨f, -, hf, htip, -⟩ := ChainTree.find?_of_find?_graft hfits.on_tree he
        · exact hj₁.mem_journal hsb
        · rw [htip]
          exact hwritten a f hf
    · refine ⟨ChainTree.wellFormed_ofRoot root 0, ChainTree.weighted_ofRoot root 0,
        fun a e he => ?_⟩
      rw [ChainTree.find?_ofRoot] at he
      split at he
      · cases he
        exact hrootw
      · cases he
  obtain ⟨hwf, hweighted, hwritten⟩ := htree
  have htree := ForkChoice.tree_ofTree params.run.finalityDepth t
  obtain ⟨hfwf, hbest⟩ :=
    ForkChoice.wellFormed_ofTree params.run.finalityDepth hwf hweighted
  have hlater : s₁.Later s' := Boot.later (boot_repairPointer hrepair : Boot root s₁ s')
  refine ⟨⟨hfwf, hboot.later.journaled hj, hboot.weighed hw, fun {id e} he => ?_⟩, ?_, rfl⟩
  · have he' : (ForkChoice.ofTree params.run.finalityDepth t).tree.find? id = some e := he
    rw [htree] at he'
    exact hlater.suffix.subset (hwritten id e he')
  · show (ForkChoice.ofTree params.run.finalityDepth t).tree.IsBest _
    rw [htree]
    exact hbest

end Node

end LedgerChain
