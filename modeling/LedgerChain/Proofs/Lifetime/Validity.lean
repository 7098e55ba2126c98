import LedgerChain.Proofs.Crypto.Transparent
import LedgerChain.Proofs.Lifetime.Archive

/-!
# Only valid blocks are stored

**Every stored block but genesis is valid on the stored block below it, with the state that is
stored with it** (`Lifetime.stored_blocks_valid`).  Blocks get into a store by import, by release of
orphans and by authoring, and the authored ones are never validated; a restart trusts the store.  It
is assumed that signatures verify, that the 32 bits of a seal can hold the position of every
authority, and that different headers have different identifiers.
-/

namespace LedgerChain

variable [Crypto]

/-- What is known of a stored block on the stored block below it. -/
structure ValidAbove (engine : Engine) (below sb : StoredBlock) : Prop where
  /-- Validation accepts the block, and leads to the stored state. -/
  validated : ∀ w, ∃ weight, 1 ≤ weight ∧
    validateBlock engine sb.block ⟨below.block, below.state, w⟩ = .ok ⟨sb.block, sb.state, weight⟩
  seal_valid :
    engine.validate sb.block.header below.block.header sb.block.header.stateDigest = .ok ()
  weight_pos : ∃ weight, engine.weight sb.block.header = .ok weight ∧ 1 ≤ weight
  height_eq : sb.block.height = below.block.height + 1
  extrinsicsDigest_eq : sb.block.header.extrinsicsDigest = extrinsicsDigest sb.block.extrinsics
  stateDigest_eq : sb.block.header.stateDigest = sb.state.digest
  applied : ∃ output, Execution.applyAll below.state sb.block.extrinsics = .ok output ∧
    output.state = sb.state
  version_eq : sb.block.header.version = blockVersion

theorem Valid.validAbove {rule : SealRule} {p tip : ChainTip} (h : Valid (.ofRule rule) p tip) :
    ValidAbove (.ofRule rule) ⟨p.block, p.state⟩ ⟨tip.block, tip.state⟩ := by
  have hfollows := h.follows
  obtain ⟨-, hseal, hweight, hext, output, hrun, hdigest, htip⟩ :=
    validateBlock_eq_ok_iff.1 h.validated
  have hstate : output.state = tip.state := by rw [htip]
  refine ⟨fun w => ⟨tip.weight, hfollows.weight_pos, ?_⟩, hseal,
    ⟨tip.weight, hweight, hfollows.weight_pos⟩, hfollows.height_eq, hext.symm, ?_,
    ⟨output, hrun, hstate⟩, h.version_eq⟩
  · rw [validateBlock_congr (p := ⟨p.block, p.state, w⟩) (q := p) rfl rfl]
    exact h.validated
  · rw [← hdigest, Execution.stateDigest_applyAll hrun, hstate]

namespace Archive

variable {genesis : ChainTip} {s : Store} {u : ChainTree} {rule : SealRule}

/-- In an archive of valid blocks the version of a state counts the blocks below it. -/
theorem version_state (h : Archive (Valid (.ofRule rule)) genesis s u)
    (hzero : genesis.block.header.height = 0) {id : BlockId} {e : TreeEntry}
    (he : u.find? id = some e) :
    e.tip.state.version = genesis.state.version + e.tip.block.header.height := by
  refine h.wellFormed.induction (P := fun b => ∀ e, u.find? b = some e →
    e.tip.state.version = genesis.state.version + e.tip.block.header.height) ?_
    (fun b f hf hne ih => ?_) he e he
  · intro e he
    obtain ⟨r, hr, htip⟩ := h.root
    rw [he] at hr
    cases hr
    rw [htip, hzero, UInt64.add_zero]
  · intro e he
    rw [hf] at he
    cases he
    obtain ⟨p, hp, hvalid⟩ := h.exists_parent hf hne
    have hheight : f.tip.block.header.height = p.tip.block.header.height + 1 := by
      have hnat : f.tip.block.header.height.toNat = p.tip.block.header.height.toNat + 1 :=
        hvalid.follows.height_eq
      have hlt := f.tip.block.header.height.toNat_lt
      rw [← UInt64.toNat_inj, UInt64.toNat_add, hnat]
      exact (Nat.mod_eq_of_lt (hnat ▸ hlt)).symm
    rw [hvalid.version_state, ih p hp, hheight, UInt64.add_assoc]

end Archive

namespace Lifetime

/-- **Only validated blocks are ever stored or attached.**  At every moment of a lifetime:

* the stored genesis block is genesis with the initial state;
* every other stored block lies above a stored block, on which it is valid with the stored state,
  and the version of this state is the initial one plus the height;
* every block of the tree is stored with the state that it has there. -/
theorem stored_blocks_valid {params : Params} {initial : State} {events : List LifeEvent}
    (hverify : Crypto.SignaturesVerify) (hfit : params.consensus.sealRule.PositionsFit)
    (hids : Store.DistinctIds (run params initial events).store.journal) :
    (∀ sb,
      (run params initial events).store.blocks.find? (Genesis.tip params initial).id = some sb →
      sb = ⟨(Genesis.tip params initial).block, initial⟩) ∧
    (∀ id sb, (run params initial events).store.blocks.find? id = some sb →
      id ≠ (Genesis.tip params initial).id →
      sb.block.id = id ∧ ∃ below,
        (run params initial events).store.blocks.find? sb.block.parent = some below ∧
        ValidAbove (.ofRule params.consensus.sealRule) below sb ∧
        sb.state.version = initial.version + sb.block.header.height) ∧
    (∀ n, run params initial events = running n → ∀ id e, n.forkChoice.tree.find? id = some e →
      n.store.blocks.find? id = some ⟨e.tip.block, e.tip.state⟩) := by
  have hkept := kept (linking_valid hverify hfit) initial events
  -- a store with any write is that of an archive
  have harch : (run params initial events).store.journal ≠ [] → ∃ u,
      Archive (Valid (.ofRule params.consensus.sealRule)) (Genesis.tip params initial)
        (run params initial events).store u := by
    intro hne
    obtain ⟨u, hu⟩ := hkept.recoverable.self hne hids
    exact ⟨u, hu.archive⟩
  have hsome : ∀ {id sb}, (run params initial events).store.blocks.find? id = some sb → ∃ u,
      Archive (Valid (.ofRule params.consensus.sealRule)) (Genesis.tip params initial)
        (run params initial events).store u := fun hsb =>
    harch (hkept.recoverable.journaled.journal_ne_nil (Table.contains_iff.2 ⟨_, hsb⟩))
  refine ⟨fun sb hsb => ?_, fun id sb hsb hne => ?_, fun n hn id e he => ?_⟩
  · obtain ⟨u, hu⟩ := hsome hsb
    obtain ⟨e, he, htip⟩ := hu.root
    rw [hu.root_eq] at he
    rw [hu.find?_stored he, htip] at hsb
    exact (Option.some.inj hsb).symm
  · obtain ⟨u, hu⟩ := hsome hsb
    obtain ⟨e, he, hblock, hstate⟩ := hu.of_find?_stored hsb
    rw [← hu.root_eq] at hne
    obtain ⟨p, hp, hvalid⟩ := hu.exists_parent he hne
    obtain ⟨block, state⟩ := sb
    cases hblock
    cases hstate
    exact ⟨hu.wellFormed.id_eq he, _, hu.find?_stored hp, hvalid.validAbove,
      hu.version_state rfl he⟩
  · rw [hn] at hkept hids
    exact (hkept.node rfl).find?_stored hids he

omit [Crypto] in
/-- A block that was signed and stored, never validated. -/
theorem stored_blocks_valid_signed :
    letI := Crypto.transparent
    Crypto.SignaturesVerify ∧ (signedParams (.zero 32)).consensus.sealRule.PositionsFit ∧
      Store.DistinctIds
        (run (signedParams (.zero 32)) {} [startEvent, signEvent (.zero 32)]).store.journal ∧
      ∃ id sb below,
        (run (signedParams (.zero 32)) {}
          [startEvent, signEvent (.zero 32)]).store.blocks.find? id = some sb ∧
        sb.block.height = 1 ∧
        ValidAbove (.ofRule (signedParams (.zero 32)).consensus.sealRule) below sb := by
  let _ := Crypto.transparent
  have hverify := Crypto.signaturesVerify_transparent
  have hfit : (signedParams (.zero 32)).consensus.sealRule.PositionsFit := by
    show 1 ≤ UInt32.size
    decide
  set l := run (signedParams (.zero 32)) {} [startEvent, signEvent (.zero 32)] with hl
  have hids : Store.DistinctIds l.store.journal := by decide +kernel
  have hlevel : l.store.level 1 ≠ [] := by decide +kernel
  obtain ⟨id, hid⟩ := List.exists_mem_of_ne_nil _ hlevel
  obtain ⟨sb, hsb, hheight⟩ := (sound _ _ _).journaled.indexed.mem_level.1 hid
  obtain ⟨hgenesis, hvalid, -⟩ := stored_blocks_valid hverify hfit hids
  refine ⟨hverify, hfit, hids, id, sb, ?_⟩
  have hne : id ≠ (Genesis.tip (signedParams (.zero 32)) {}).id := by
    rintro rfl
    rw [hgenesis sb hsb] at hheight
    cases hheight
  obtain ⟨-, below, -, habove, -⟩ := hvalid id sb hsb hne
  exact ⟨below, hsb, hheight, habove⟩

end Lifetime

end LedgerChain
