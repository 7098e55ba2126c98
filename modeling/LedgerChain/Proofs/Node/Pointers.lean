import LedgerChain.Proofs.Node.Finality
import LedgerChain.Proofs.Node.Restart

/-!
# Where a node says its chain is

The position of a node's chain is kept in four places: in fork choice, in the published status, and
in the two pointers of the store, where a finalized pointer that could not be written is written
later.  They are **aligned** (`Node.Aligned`) if status and canonical pointer say what fork choice
says, and the finalized pointer lags behind the root at most.  Every step keeps them so
(`Step.aligned`), whatever writes fail.

A move of the canonical tip, and a shutdown, bring the finalized pointer up to date unless the write
that is due fails (`upToDate_or_offer`, `upToDate_or_shutdown`).
-/

namespace LedgerChain

namespace Node

variable [Crypto] {n n' : Node} {tip : ChainTip} {outcome : Outcome} {update : PoolUpdate}
  {answer : Except ChainError (Outcome × PoolUpdate)}

/-- Status and canonical pointer are those of fork choice.  The finalized pointer points to a block
that was written and is final. -/
structure Aligned (n : Node) : Prop where
  canonical : n.store.canonical = some n.forkChoice.best
  published : n.Published
  finalized : n.store.finalized = some n.storedFinalized
  final : ∃ b state, .block b state ∈ n.store.journal ∧ b.id = n.storedFinalized ∧ n.Final b

theorem Sound.exists_root (hn : n.Sound) :
    ∃ b state, .block b state ∈ n.store.journal ∧ b.id = n.forkChoice.tree.root ∧ n.Final b := by
  obtain ⟨r, hr⟩ := hn.wellFormed.tree.root_mem
  exact ⟨r.tip.block, r.tip.state, hn.written hr, hn.wellFormed.tree.id_eq hr, r.tip.block,
    ForkChoice.finalized?_eq hr, .refl _⟩

theorem Sound.root_stored (hn : n.Sound) :
    n.store.blocks.contains n.forkChoice.tree.root = true := by
  obtain ⟨r, hr⟩ := hn.wellFormed.tree.root_mem
  exact hn.stored hr

theorem Sound.best_stored (hn : n.Sound) :
    n.store.blocks.contains n.forkChoice.best = true := by
  obtain ⟨e, he, -⟩ := hn.wellFormed.best
  exact hn.stored he

omit [Crypto] in
theorem pointerFault_of_error {s : Store} {p : Pointer} {id : BlockId} {e : StoreError}
    (h : s.setPointer p id = .error e) (hin : s.blocks.contains id = true) :
    s.pointerFault p = true := by
  rw [Store.setPointer, hin] at h
  split at h
  · assumption
  · cases h

/-! ### Steps -/

theorem SameChain.aligned (h : n.SameChain n') (hn : n.Aligned) : n'.Aligned where
  canonical := by rw [h.store, h.forkChoice]; exact hn.canonical
  published := by rw [Published, h.status, h.forkChoice]; exact hn.published
  finalized := by rw [h.store, h.storedFinalized]; exact hn.finalized
  final := by
    obtain ⟨b, state, hmem, hid, root, hroot, hdesc⟩ := hn.final
    exact ⟨b, state, h.store ▸ hmem, hid.trans h.storedFinalized.symm, root,
      h.forkChoice ▸ hroot, hdesc⟩

theorem Step.aligned_of_pointers (h : Step Heavy n n') (hn : n.Sound) (ha : n.Aligned)
    (hcanonical : n'.store.canonical = some n'.forkChoice.best)
    (hfinalized : (n'.store.finalized = n.store.finalized ∧
        n'.storedFinalized = n.storedFinalized) ∨
      (n'.store.finalized = some n'.storedFinalized ∧
        n'.storedFinalized = n'.forkChoice.tree.root)) : n'.Aligned := by
  refine ⟨hcanonical, h.published hn.wellFormed ha.published, ?_, ?_⟩
  · rcases hfinalized with ⟨hstore, hsame⟩ | ⟨hstore, -⟩
    · rw [hstore, hsame]
      exact ha.finalized
    · exact hstore
  · rcases hfinalized with ⟨-, hsame⟩ | ⟨-, hroot⟩
    · obtain ⟨b, state, hmem, hid, root, hroot, hdesc⟩ := ha.final
      obtain ⟨old, new, hold, hnew, hnewer⟩ := h.descends hn.wellFormed
      rw [hroot] at hold
      cases hold
      exact ⟨b, state, h.later.suffix.subset hmem, hid.trans hsame.symm, new, hnew,
        hnewer.trans hdesc⟩
    · rw [hroot]
      exact (h.sound hn).exists_root

/-- The pointers after a decision: the canonical one follows the canonical tip, and the finalized
one stays or is set to the root. -/
theorem Decided.pointers (h : Decided n tip answer n')
    (hcanonical : n.store.canonical = some n.forkChoice.best) :
    n'.store.canonical = some n'.forkChoice.best ∧
      ((n'.store.finalized = n.store.finalized ∧ n'.storedFinalized = n.storedFinalized) ∨
        (n'.store.finalized = some n'.storedFinalized ∧
          n'.storedFinalized = n'.forkChoice.tree.root)) := by
  cases h with
  | unchanged _ _ => exact ⟨hcanonical, Or.inl ⟨rfl, rfl⟩⟩
  | stayed _ _ => exact ⟨hcanonical, Or.inl ⟨rfl, rfl⟩⟩
  | heldBack _ _ _ _ => exact ⟨hcanonical, Or.inl ⟨rfl, rfl⟩⟩
  | moved _ _ _ _ hset hsettled =>
    obtain ⟨-, -, rfl⟩ := Store.setPointer_eq_ok_iff.1 hset
    cases hsettled with
    | unwritten _ _ => exact ⟨rfl, Or.inl ⟨rfl, rfl⟩⟩
    | written _ hfin =>
      obtain ⟨-, -, rfl⟩ := Store.setPointer_eq_ok_iff.1 hfin
      exact ⟨rfl, Or.inr ⟨rfl, rfl⟩⟩

/-- **Every step keeps status and pointers aligned**, whatever writes fail. -/
theorem Step.aligned (h : Step Heavy n n') (hn : n.Sound) (ha : n.Aligned) : n'.Aligned := by
  cases h with
  | aside hsame => exact hsame.aligned ha
  | shutdown =>
    rcases n.shutdown_cases with hsame | ⟨store, hset, hrest⟩
    · exact hsame.aligned ha
    · obtain ⟨-, -, rfl⟩ := Store.setPointer_eq_ok_iff.1 hset
      refine Step.aligned_of_pointers (.shutdown n) hn ha ?_ ?_
      · rw [n.forkChoice_shutdown]
        rcases hrest with hsame | ⟨store', hset', hsame⟩
        · rw [hsame.store]
          rfl
        · rw [hsame.store, (Store.setPointer_eq_ok_iff.1 hset').2.2]
          rfl
      · rcases hrest with hsame | ⟨store', hset', hsame⟩
        · exact Or.inl ⟨by rw [hsame.store]; rfl, hsame.storedFinalized⟩
        · refine Or.inr ⟨?_, ?_⟩
          · rw [hsame.store, hsame.storedFinalized, (Store.setPointer_eq_ok_iff.1 hset').2.2]
            rfl
          · rw [hsame.storedFinalized, hsame.forkChoice]
  | @offer tip hheavy =>
    have hstep : Step Heavy n (n.offer tip).2 := .offer hheavy
    rcases n.offer_cases tip with ⟨e, heq⟩ | ⟨store, hput, heq⟩
    · rw [heq]
      exact ha
    · have hwf : ({ n with store } : Node).forkChoice.WellFormed := hn.wellFormed
      obtain ⟨-, rfl⟩ := Store.put_eq_ok_iff.1 hput
      rw [heq] at hstep ⊢
      -- storing the block leaves the pointers alone
      obtain ⟨hcan, hfin⟩ := (decided_decide hwf hheavy.weight_pos).pointers
        ((Store.canonical_addBlock n.store tip.block tip.state).trans ha.canonical)
      rw [Store.finalized_addBlock] at hfin
      exact hstep.aligned_of_pointers hn ha hcan hfin

theorem Move.aligned (h : Move n n') (hn : n.Sound) (ha : n.Aligned) : n'.Aligned := by
  cases h with
  | step h => exact h.aligned hn ha
  | setFaults faults => exact ⟨ha.canonical, ha.published, ha.finalized, ha.final⟩

theorem aligned_of_start {params : Params} {initial : State} {pool : Mempool} {s s' : Store}
    (hj : s.Journaled) (hw : s.Weighed (.ofRule params.consensus.sealRule))
    (h : start params s pool initial = (.ok n, s')) : n.Aligned := by
  obtain ⟨hsound, -, -⟩ := sound_of_start hj hw h
  obtain ⟨hcan, hroot, -⟩ := pointers_of_start hj h
  refine ⟨hcan, ?_, ?_, hroot ▸ hsound.exists_root⟩
  · obtain ⟨root, s₁, t, -, -, -, rfl⟩ := start_ok_cases h
    rfl
  · obtain ⟨root, s₁, t, hload, ht, hrepair, rfl⟩ := start_ok_cases h
    show s'.finalized = some (ForkChoice.ofTree params.run.finalityDepth t).tree.root
    rw [(repairPointer_ok hrepair).2.1, (finalized_loadRoot hj hload).1, ForkChoice.tree_ofTree,
      root_restoreTree ht]

/-! ### The finalized pointer is up to date -/

/-- The finalized pointer that was written last is the root. -/
def UpToDate (n : Node) : Prop := n.storedFinalized = n.forkChoice.tree.root

omit [Crypto] in
theorem Settled.upToDate_or (h : Settled n n')
    (hin : n'.store.blocks.contains n'.forkChoice.tree.root = true) :
    n'.UpToDate ∨ (n.storedFinalized ≠ n'.forkChoice.tree.root ∧
      n.store.pointerFault .finalized = true) := by
  cases h with
  | written _ _ => exact Or.inl rfl
  | @unwritten t _ hdue =>
    by_cases hsame : n.storedFinalized = t.root
    · exact Or.inl hsame
    · obtain ⟨e, he⟩ := hdue.resolve_left hsame
      exact Or.inr ⟨hsame, pointerFault_of_error he hin⟩

/-- The canonical tip, the root and the finalized pointer are where they were. -/
structure Still (n n' : Node) : Prop where
  best_eq : n'.forkChoice.best = n.forkChoice.best
  root_eq : n'.forkChoice.tree.root = n.forkChoice.tree.root
  storedFinalized_eq : n'.storedFinalized = n.storedFinalized

omit [Crypto] in
theorem still_of_forkChoice_eq (h : n'.forkChoice = n.forkChoice)
    (hstored : n'.storedFinalized = n.storedFinalized) : n.Still n' :=
  ⟨by rw [h], by rw [h], hstored⟩

theorem Decided.still_or (h : Decided n tip answer n')
    (hin : n'.store.blocks.contains n'.forkChoice.tree.root = true) :
    (n.Still n' ∧ ∀ outcome update, answer = .ok (outcome, update) →
        outcome.changedCanonical = false) ∨
      n'.UpToDate ∨ (n.storedFinalized ≠ n'.forkChoice.tree.root ∧
        n.store.pointerFault .finalized = true) := by
  cases h with
  | unchanged _ hanswer =>
    refine Or.inl ⟨⟨rfl, rfl, rfl⟩, ?_⟩
    rintro outcome update rfl
    rcases hanswer with ⟨-, heq⟩ | ⟨-, heq⟩ | ⟨e, heq⟩ <;> cases heq <;> rfl
  | stayed _ _ => exact Or.inl ⟨⟨rfl, rfl, rfl⟩, fun _ _ heq => (by cases heq; rfl)⟩
  | heldBack _ _ _ _ => exact Or.inl ⟨⟨rfl, rfl, rfl⟩, fun _ _ heq => (by cases heq)⟩
  | moved _ _ _ _ hset hsettled =>
    obtain ⟨-, -, rfl⟩ := Store.setPointer_eq_ok_iff.1 hset
    refine Or.inr ((hsettled.upToDate_or hin).imp_right (And.imp_right fun hfault => ?_))
    simpa [Store.pointerFault, cancelAttempts] using hfault

/-- An offer leaves canonical tip, root and finalized pointer alone, or brings the pointer up to
date, unless the write that is due fails. -/
theorem still_or_offer (hn : n.Sound) (hheavy : n.Heavy tip) :
    (n.Still (n.offer tip).2 ∧ ∀ outcome update, (n.offer tip).1 = .ok (outcome, update) →
        outcome.changedCanonical = false) ∨
      (n.offer tip).2.UpToDate ∨ (n.storedFinalized ≠ (n.offer tip).2.forkChoice.tree.root ∧
        n.store.pointerFault .finalized = true) := by
  have hin := (Step.sound (.offer hheavy) hn).root_stored
  rcases n.offer_cases tip with ⟨e, heq⟩ | ⟨store, hput, heq⟩ <;> rw [heq] at hin ⊢
  · exact Or.inl ⟨⟨rfl, rfl, rfl⟩, fun _ _ h => (by cases h)⟩
  · have hwf : ({ n with store } : Node).forkChoice.WellFormed := hn.wellFormed
    rcases (decided_decide hwf hheavy.weight_pos).still_or hin with ⟨hstill, hanswer⟩ |
      hup | ⟨hdue, hfault⟩
    · exact Or.inl ⟨⟨hstill.best_eq, hstill.root_eq, hstill.storedFinalized_eq⟩, hanswer⟩
    · exact Or.inr (Or.inl hup)
    · refine Or.inr (Or.inr ⟨hdue, ?_⟩)
      simpa only [Store.pointerFault, Store.faults_put hput] using hfault

/-- **A move of the canonical tip brings the finalized pointer up to date**, unless the write that
is due fails. -/
theorem upToDate_or_offer (hn : n.Sound) (hheavy : n.Heavy tip)
    (h : (n.offer tip).1 = .ok (outcome, update)) (hchanged : outcome.changedCanonical = true) :
    (n.offer tip).2.UpToDate ∨ (n.storedFinalized ≠ (n.offer tip).2.forkChoice.tree.root ∧
      n.store.pointerFault .finalized = true) := by
  refine (still_or_offer hn hheavy).resolve_left fun hstill => ?_
  rw [hstill.2 outcome update h] at hchanged
  cases hchanged

/-- **A shutdown brings the finalized pointer up to date**, unless a write of a pointer fails. -/
theorem upToDate_or_shutdown (hn : n.Sound) :
    n.shutdown.2.UpToDate ∨ (n.storedFinalized ≠ n.forkChoice.tree.root ∧
      n.store.pointerFault .finalized = true) := by
  by_cases hsame : n.storedFinalized = n.forkChoice.tree.root
  · -- whatever is written is the root
    left
    rw [UpToDate, n.forkChoice_shutdown]
    rcases n.shutdown_cases with hrest | ⟨store, -, hrest | ⟨store', -, hrest⟩⟩
    · exact hrest.storedFinalized.trans hsame
    · exact hrest.storedFinalized.trans hsame
    · exact hrest.storedFinalized
  · rcases hfault : n.store.pointerFault .finalized with _ | _
    · left
      obtain ⟨hfin, hpointers⟩ := Bool.or_eq_false_iff.1 hfault
      have hcan : n.store.setPointer .canonical n.forkChoice.best =
          .ok (n.store.point .canonical n.forkChoice.best) :=
        Store.setPointer_eq_ok_iff.2 ⟨hpointers, hn.best_stored, rfl⟩
      have hset : (n.store.point .canonical n.forkChoice.best).setPointer .finalized
          n.forkChoice.tree.root =
            .ok ((n.store.point .canonical n.forkChoice.best).point .finalized
              n.forkChoice.tree.root) :=
        Store.setPointer_eq_ok_iff.2 ⟨hfault, hn.root_stored, rfl⟩
      rw [UpToDate, n.forkChoice_shutdown]
      simp only [shutdown, cancelAttempts, hcan, storeFinalized, if_neg hsame, hset]
      split <;> rfl
    · exact Or.inr ⟨hsame, rfl⟩

/-- With pointers that can be written, a step brings the finalized pointer up to date, or leaves
canonical tip, root and pointer alone. -/
theorem Step.upToDate_or (h : Step Heavy n n') (hn : n.Sound)
    (hfault : n.store.pointerFault .finalized = false) : n'.UpToDate ∨ n.Still n' := by
  cases h with
  | aside hsame => exact Or.inr (still_of_forkChoice_eq hsame.forkChoice hsame.storedFinalized)
  | shutdown =>
    rcases n.upToDate_or_shutdown hn with hup | ⟨-, hbad⟩
    · exact Or.inl hup
    · rw [hfault] at hbad
      cases hbad
  | offer hheavy =>
    rcases still_or_offer hn hheavy with ⟨hstill, -⟩ | hup | ⟨-, hbad⟩
    · exact Or.inr hstill
    · exact Or.inl hup
    · rw [hfault] at hbad
      cases hbad

/-- **With pointers that can be written, a run brings the finalized pointer up to date, or leaves
canonical tip, root and pointer alone.** -/
theorem Run.upToDate_or (h : Run Heavy n n') (hn : n.Sound)
    (hfault : n.store.pointerFault .finalized = false) : n'.UpToDate ∨ n.Still n' := by
  induction h with
  | refl => exact Or.inr ⟨rfl, rfl, rfl⟩
  | @tail m n' hrun hstep ih =>
    have hfaults : m.store.pointerFault .finalized = false := by
      rw [Store.pointerFault, Run.faults_eq hrun]
      exact hfault
    rcases hstep.upToDate_or (Run.sound hrun hn) hfaults with hup | hstill
    · exact Or.inl hup
    · refine ih.imp (fun hup => ?_) fun hbefore => ?_
      · rw [UpToDate, hstill.storedFinalized_eq, hstill.root_eq]
        exact hup
      · exact ⟨hstill.best_eq.trans hbefore.best_eq, hstill.root_eq.trans hbefore.root_eq,
          hstill.storedFinalized_eq.trans hbefore.storedFinalized_eq⟩

theorem Aligned.finalized_eq (h : n.Aligned) (hup : n.UpToDate) :
    n.store.finalized = some n.forkChoice.tree.root := by
  rw [h.finalized, hup]

end Node

end LedgerChain
