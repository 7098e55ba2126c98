import LedgerChain.Proofs.Node.BestTip

/-!
# What a node writes

A node writes the blocks that it offers itself, and pointers; nothing else happens to its store
(`Step.store_induct`).  In particular its store only ever gets later, and its faults stay as they
are.

A node is **sound in memory** (`Node.Sound`) if every block of its tree was written before, and
every stored block above height zero has the positive weight that its seal says.

* `Sound.stored` : the blocks of the tree are stored.
* `Run.writtenBlocks_subset` : what is written stays written.
* `Decided.of_find?` : the blocks of the tree after a decision were there before, or are the one
  that was decided on.
-/

namespace LedgerChain

namespace Node

variable [Crypto] {n n' : Node} {tip : ChainTip} {S : Store → Prop}

/-! ### The store along a step -/

omit [Crypto] in
theorem store_storeFinalized (hpoint : ∀ {s} p id, S s → S (s.point p id))
    (h : n.storeFinalized = .ok n') (hs : S n.store) : S n'.store := by
  rcases storeFinalized_ok_cases h with ⟨-, rfl⟩ | ⟨store, hset, rfl⟩
  · exact hs
  · rw [(Store.setPointer_eq_ok_iff.1 hset).2.2]
    exact hpoint .finalized n.forkChoice.tree.root hs

omit [Crypto] in
theorem store_settle (hpoint : ∀ {s} p id, S s → S (s.point p id)) (hs : S n.store) :
    S n.settle.store := by
  rw [settle]
  split
  · exact hs
  · rename_i f hadv
    simp only
    split
    · exact hs
    · rename_i stored hstored
      exact store_storeFinalized hpoint hstored hs

theorem store_decide (hpoint : ∀ {s} p id, S s → S (s.point p id)) (hs : S n.store) :
    S (n.decide tip).2.store := by
  simp only [Node.decide]
  split
  · exact hs
  · split
    · exact hs
    · split
      · split <;> exact hs
      · rename_i store hset
        refine store_settle hpoint ?_
        simp only [cancelAttempts]
        rw [(Store.setPointer_eq_ok_iff.1 hset).2.2]
        exact hpoint _ _ hs

theorem later_decide (n : Node) (tip : ChainTip) : n.store.Later (n.decide tip).2.store :=
  store_decide (S := fun s => n.store.Later s) (fun p id hs => hs.tail ⟨.pointer p id, rfl⟩) .refl

theorem store_offer (hpoint : ∀ {s} p id, S s → S (s.point p id))
    (hblock : S n.store → S (n.store.addBlock tip.block tip.state)) (hs : S n.store) :
    S (n.offer tip).2.store := by
  rcases n.offer_cases tip with ⟨e, heq⟩ | ⟨store, hput, heq⟩ <;> rw [heq]
  · exact hs
  · rw [(Store.put_eq_ok_iff.1 hput).2]
    exact store_decide hpoint (hblock hs)

omit [Crypto] in
theorem store_shutdown (hpoint : ∀ {s} p id, S s → S (s.point p id)) (hs : S n.store) :
    S n.shutdown.2.store := by
  simp only [shutdown]
  split
  · exact hs
  · rename_i store hset
    have hpointed : S store := by
      rw [(Store.setPointer_eq_ok_iff.1 hset).2.2]
      exact hpoint _ _ hs
    split
    · exact hpointed
    · rename_i stored hstored
      have hfinal : S stored.store := store_storeFinalized hpoint hstored hpointed
      split <;> exact hfinal

/-- **A step writes offered blocks and pointers only**: what these writes keep of a store, a step
keeps. -/
theorem Step.store_induct {A : Node → ChainTip → Prop} (h : Step A n n')
    (hpoint : ∀ {s} p id, S s → S (s.point p id))
    (hblock : ∀ {tip}, A n tip → S n.store → S (n.store.addBlock tip.block tip.state))
    (hs : S n.store) : S n'.store := by
  cases h with
  | aside hsame => exact hsame.store ▸ hs
  | offer hA => exact store_offer hpoint (hblock hA) hs
  | shutdown => exact store_shutdown hpoint hs

theorem Step.later {A : Node → ChainTip → Prop} (h : Step A n n') : n.store.Later n'.store :=
  h.store_induct (S := fun s => n.store.Later s) (fun p id hs => hs.tail ⟨.pointer p id, rfl⟩)
    (fun _ hs => hs.tail ⟨.block _ _, rfl⟩) .refl

theorem Step.faults_eq {A : Node → ChainTip → Prop} (h : Step A n n') :
    n'.store.faults = n.store.faults :=
  h.store_induct (S := fun s => s.faults = n.store.faults)
    (fun p id hs => (Store.faults_point _ p id).trans hs)
    (fun _ hs => (Store.faults_addBlock _ _ _).trans hs) rfl

theorem Run.later {A : Node → ChainTip → Prop} (h : Run A n n') : n.store.Later n'.store :=
  h.induct (I := fun m => n.store.Later m.store) (fun hI hstep => hI.trans hstep.later) .refl

theorem Run.faults_eq {A : Node → ChainTip → Prop} (h : Run A n n') :
    n'.store.faults = n.store.faults :=
  h.induct (I := fun m => m.store.faults = n.store.faults)
    (fun hI hstep => hstep.faults_eq.trans hI) rfl

theorem Run.writtenBlocks_subset {A : Node → ChainTip → Prop} (h : Run A n n') :
    Store.writtenBlocks n.store.journal ⊆ Store.writtenBlocks n'.store.journal := by
  have hlater : n.store.Later n'.store := Run.later h
  intro b hb
  obtain ⟨state, hb⟩ := Store.mem_writtenBlocks.1 hb
  exact Store.mem_writtenBlocks.2 ⟨state, hlater.suffix.subset hb⟩

theorem written_offer_or (n : Node) (tip : ChainTip) :
    (∃ e, n.offer tip = (.error (.store e), n)) ∨
      tip.block ∈ Store.writtenBlocks (n.offer tip).2.store.journal := by
  rcases n.offer_cases tip with herror | ⟨store, hput, heq⟩
  · exact Or.inl herror
  · right
    have hlater : store.Later (n.offer tip).2.store := by
      rw [heq]
      exact later_decide { n with store } tip
    refine Store.mem_writtenBlocks.2 ⟨tip.state, hlater.suffix.subset ?_⟩
    rw [(Store.put_eq_ok_iff.1 hput).2, Store.journal_addBlock]
    exact List.mem_cons_self

end Node

/-! ### Weights of stored blocks -/

/-- Every stored block above height zero has the positive weight that its seal says. -/
def Store.Weighed (engine : Engine) (s : Store) : Prop :=
  ∀ id sb, s.blocks.find? id = some sb → sb.block.height ≠ 0 →
    ∃ w, engine.weight sb.block.header = .ok w ∧ 1 ≤ w

namespace Store.Weighed

variable {engine : Engine} {s : Store}

theorem empty : Weighed engine {} := by
  intro id sb hsb
  cases hsb

theorem point (h : s.Weighed engine) (p : Pointer) (id : BlockId) :
    (s.point p id).Weighed engine := by
  intro a sb hsb
  rw [Store.blocks_point] at hsb
  exact h a sb hsb

theorem addBlock [Crypto] (h : s.Weighed engine) {block : Block} (state : State)
    (hblock : block.height ≠ 0 → ∃ w, engine.weight block.header = .ok w ∧ 1 ≤ w) :
    (s.addBlock block state).Weighed engine := by
  intro a sb hsb
  rw [Store.find?_addBlock] at hsb
  split at hsb
  · cases hsb
    exact hblock
  · exact h a sb hsb

end Store.Weighed

namespace Node

variable [Crypto] {n n' : Node} {tip : ChainTip}

/-- The tree of the node is well formed and was written before, and the store comes from its journal
and knows the weights of its blocks. -/
structure Sound (n : Node) : Prop where
  wellFormed : n.forkChoice.WellFormed
  journaled : n.store.Journaled
  weighed : n.store.Weighed n.engine
  written : ∀ {id e}, n.forkChoice.tree.find? id = some e →
    .block e.tip.block e.tip.state ∈ n.store.journal

theorem Sound.withFaults (h : n.Sound) (faults : Faults) :
    Sound { n with store := { n.store with faults } } where
  wellFormed := h.wellFormed
  journaled := h.journaled.withFaults faults
  weighed := h.weighed
  written := h.written

/-- Blocks of the tree are stored, though under a collision of identifiers it may be another block
that is stored under the identifier. -/
theorem Sound.stored (h : n.Sound) {id : BlockId} {e : TreeEntry}
    (he : n.forkChoice.tree.find? id = some e) : n.store.blocks.contains id = true := by
  have hj := h.journaled
  rw [Store.Journaled] at hj
  have hid : e.tip.block.id = id := h.wellFormed.tree.id_eq he
  rw [hj, ← hid]
  exact Store.contains_of_mem_journal (h.written he)

theorem Decided.of_find? {answer : Except ChainError (Outcome × PoolUpdate)} {id : BlockId}
    {e : TreeEntry} (h : Decided n tip answer n') (he : n'.forkChoice.tree.find? id = some e) :
    e.tip = tip ∨ ∃ f, n.forkChoice.tree.find? id = some f ∧ e.tip = f.tip := by
  have hgraft : ∀ {below : TreeEntry}, n.forkChoice.tree.Fits tip below → ∀ {e},
      (n.forkChoice.tree.graft tip below).find? id = some e →
      e.tip = tip ∨ ∃ f, n.forkChoice.tree.find? id = some f ∧ e.tip = f.tip := by
    intro below hfits e he
    obtain ⟨-, rfl⟩ | ⟨f, -, hf, htip, -⟩ := ChainTree.find?_of_find?_graft hfits.on_tree he
    · exact Or.inl rfl
    · exact Or.inr ⟨f, hf, htip⟩
  cases h with
  | unchanged _ _ => exact Or.inr ⟨e, he, rfl⟩
  | stayed hfits _ => exact hgraft hfits he
  | heldBack hfits _ _ _ => exact hgraft hfits he
  | moved hfits _ _ _ _ hsettled =>
    obtain ⟨t, hcut, heq, -⟩ := hsettled.exists_tree
    rw [heq] at he
    exact hgraft hfits (hcut.isUpperPart.of_find? he).2

theorem Step.sound (h : Step Heavy n n') (hn : n.Sound) : n'.Sound where
  wellFormed := h.wellFormed hn.wellFormed
  journaled := h.later.journaled hn.journaled
  weighed := by
    rw [Run.engine_eq (.single h)]
    exact h.store_induct (S := fun s => s.Weighed n.engine) (fun p id hs => hs.point p id)
      (fun hheavy hs => hs.addBlock _ fun _ => ⟨_, hheavy.weight_eq, hheavy.weight_pos⟩) hn.weighed
  written {id e} he := by
    cases h with
    | aside hsame =>
      rw [hsame.forkChoice] at he
      exact hsame.store ▸ hn.written he
    | shutdown =>
      have hlater : n.store.Later n.shutdown.2.store := Step.later (A := Heavy) (.shutdown n)
      rw [forkChoice_shutdown] at he
      exact hlater.suffix.subset (hn.written he)
    | @offer tip hheavy =>
      have hlater : n.store.Later (n.offer tip).2.store := Step.later (.offer hheavy)
      rcases n.offer_cases tip with ⟨e', heq⟩ | ⟨store, hput, heq⟩
      · rw [heq] at he ⊢
        exact hn.written he
      · have hwf : ({ n with store } : Node).forkChoice.WellFormed := hn.wellFormed
        have hd := decided_decide hwf hheavy.weight_pos
        -- the block is written before the decision, which only writes pointers
        have hafter : store.Later (n.offer tip).2.store := by
          rw [heq]
          exact later_decide { n with store } tip
        rw [heq] at he
        rcases hd.of_find? he with htip | ⟨f, hf, htip⟩
        · refine hafter.suffix.subset ?_
          rw [(Store.put_eq_ok_iff.1 hput).2, htip, Store.journal_addBlock]
          exact List.mem_cons_self
        · rw [htip]
          exact hlater.suffix.subset (hn.written hf)

theorem Run.sound (h : Run Heavy n n') (hn : n.Sound) : n'.Sound :=
  h.induct (I := Sound) (fun hI hstep => hstep.sound hI) hn

end Node

end LedgerChain
