import LedgerChain.Proofs.Node.Recall
import LedgerChain.Proofs.Sealing.Cancel

/-!
# Making a block undisturbed

If nothing else comes in while a block is made, then the parent does not move, and no attempt has to
be given up (`Node.attempt_ne_startOver`).  So what is made is made of the extrinsics that were
pulled first (`Node.author_alone`), in the one attempt that is made (`Node.author_alone_cases`).
-/

namespace LedgerChain

/-- Nothing comes in during the attempt. -/
structure Timeline.Alone (timeline : Timeline) : Prop where
  afterPull : timeline.afterPull = []
  whileSealing : timeline.whileSealing = []
  beforeCheck : timeline.beforeCheck = []

theorem CancelFlags.isCancelled_fresh (f : CancelFlags) : f.fresh.2.isCancelled f.fresh.1 = false := by
  simp [fresh, isCancelled]

namespace Node

variable [Crypto] {n n' : Node} {config : AuthoringConfig} {timeline : Timeline}
  {timelines : Nat → Timeline} {parent : ChainTip} {candidate : Candidate}

theorem SameChain.heavy {m : Node} {tip : ChainTip} (h : n.SameChain m)
    (hfollows : Follows n.engine parent tip) : m.Heavy tip := by
  refine ⟨?_, hfollows.weight_pos⟩
  rw [engine, h.params]
  exact hfollows.weight_eq

theorem submitSealed_ne_startOver {a : Attempt} {tip : ChainTip}
    (hfresh : n.flags.isCancelled a.token = false) (hbest : n.forkChoice.best = a.parent.id) :
    (n.submitSealed a tip).1 ≠ .startOver := by
  rw [submitSealed_eq, if_neg (by simp [hfresh, hbest])]
  rcases (n.unregister a.token).offer tip with ⟨e | ⟨outcome, update⟩, n₁⟩ <;> simp

/-- **An attempt on the canonical tip that is not disturbed does not start over.** -/
theorem attempt_ne_startOver (h : timeline.Alone) (hbest : n.forkChoice.best = parent.id)
    {ending : AttemptEnd} {answers : List EventAnswer × List EventAnswer}
    (hres : n.attempt config timeline parent candidate = ((ending, answers), n')) :
    ending ≠ .startOver := by
  have hend : ending = (n.attempt config timeline parent candidate).1.1 := by rw [hres]
  rw [hend]
  have hfresh : (n.register parent candidate).2.flags.isCancelled
      (n.register parent candidate).1.token = false := n.flags.isCancelled_fresh
  simp only [attempt, runAttempt, h.whileSealing, h.beforeCheck, handleAll]
  split
  · rename_i e hseal
    have hnot : e ≠ .sealCancelled := by
      rintro rfl
      obtain ⟨poll, hpoll⟩ := Candidate.exists_cancelled hseal
      rw [AuthoringConfig.sealContext, hfresh] at hpoll
      cases hpoll
    simp [abandon, hnot]
  · exact submitSealed_ne_startOver hfresh hbest

/-- A block that an undisturbed attempt makes completes its candidate, and was offered to the node as
it was. -/
theorem attempt_made_cases (h : timeline.Alone) {block : Block} {outcome : Outcome}
    {answers : List EventAnswer × List EventAnswer}
    (hmade : n.attempt config timeline parent candidate = ((.made block outcome, answers), n')) :
    ∃ ctx tip m update n₁, candidate.complete n.engine parent ctx = .ok tip ∧
      n.SameChain m ∧ n.SameMemory m ∧ block = tip.block ∧
      m.offer tip = (.ok (outcome, update), n₁) ∧
      n' = ((n₁.updatePool update).releaseOrphans tip.id).2 := by
  simp only [attempt, runAttempt, h.whileSealing, h.beforeCheck, handleAll] at hmade
  split at hmade
  · simp only [abandon] at hmade
    split at hmade <;> cases hmade
  · rename_i tip hseal
    rcases hsub : (n.register parent candidate).2.submitSealed (n.register parent candidate).1 tip
      with ⟨ending, m⟩
    rw [hsub] at hmade
    cases hmade
    obtain ⟨-, hblock, update, n₁, hoffer, heq⟩ := submitSealed_made_cases hsub
    exact ⟨_, tip, (n.register parent candidate).2.unregister (n.register parent candidate).1.token,
      update, n₁, hseal, ⟨rfl, rfl, rfl, rfl, rfl, rfl⟩, ⟨rfl, rfl⟩, hblock, hoffer, heq⟩

/-- An undisturbed attempt that fails has found no seal, or has offered its block in vain.  It puts
the extrinsics of its candidate back. -/
theorem attempt_failed_cases (h : timeline.Alone) {e : AuthoringError}
    {answers : List EventAnswer × List EventAnswer}
    (hfailed : n.attempt config timeline parent candidate = ((.failed e, answers), n')) :
    ∃ m n₁, n.SameChain m ∧ n.SameMemory m ∧ m.pool = n.pool ∧
      n' = n₁.giveBack candidate.extrinsics ∧
      (n₁ = m ∨ ∃ ctx tip e', candidate.complete n.engine parent ctx = .ok tip ∧
        m.offer tip = (.error e', n₁)) := by
  refine ⟨(n.register parent candidate).2.unregister (n.register parent candidate).1.token, ?_⟩
  simp only [attempt, runAttempt, h.whileSealing, h.beforeCheck, handleAll] at hfailed
  split at hfailed
  · simp only [abandon] at hfailed
    split at hfailed <;> cases hfailed
    exact ⟨_, ⟨rfl, rfl, rfl, rfl, rfl, rfl⟩, ⟨rfl, rfl⟩, rfl, rfl, Or.inl rfl⟩
  · rename_i tip hseal
    rcases hsub : (n.register parent candidate).2.submitSealed (n.register parent candidate).1 tip
      with ⟨ending, m⟩
    rw [hsub] at hfailed
    cases hfailed
    rw [submitSealed_eq] at hsub
    split at hsub
    · cases hsub
    · rcases hoffer : ((n.register parent candidate).2.unregister
        (n.register parent candidate).1.token).offer tip with ⟨e' | ⟨outcome, update⟩, n₁⟩ <;>
        rw [hoffer] at hsub <;> cases hsub
      rw [Candidate.extrinsics_of_complete hseal]
      exact ⟨n₁, ⟨rfl, rfl, rfl, rfl, rfl, rfl⟩, ⟨rfl, rfl⟩, rfl, rfl,
        Or.inr ⟨_, tip, e', hseal, hoffer⟩⟩

/-- The node once the extrinsics for a block were pulled. -/
def pulledFor (n : Node) (config : AuthoringConfig) : Node :=
  { n with pool := (n.pool.pull config.maxExtrinsics).2 }

/-- The block that is made of the extrinsics that were pulled first, and those that are left out. -/
def firstCandidate (n : Node) (config : AuthoringConfig) (parent : ChainTip) :
    Candidate × List (Extrinsic × ExtrinsicError) :=
  Candidate.prepare parent (n.pool.pull config.maxExtrinsics).1

/-- **An undisturbed author makes one attempt**, on the canonical tip, or has nothing to make a block
of. -/
theorem author_alone_cases (hwf : n.forkChoice.WellFormed) (halone : ∀ i, (timelines i).Alone)
    (hone : 1 ≤ config.maxAttempts) :
    ∃ parent, n.canonicalTip? = some parent ∧
      (((n.firstCandidate config parent).1.extrinsics = [] ∧ ∃ answers,
          n.author config timelines = (⟨.error .nothingToAuthor, answers⟩, n.pulledFor config)) ∨
        (∃ e answers all n', (n.pulledFor config).attempt config (timelines 0) parent
            (n.firstCandidate config parent).1 = ((.failed e, answers), n') ∧
          n.author config timelines = (⟨.error e, all⟩, n')) ∨
        ∃ block outcome answers all n', (n.pulledFor config).attempt config (timelines 0) parent
            (n.firstCandidate config parent).1 = ((.made block outcome, answers), n') ∧
          n.author config timelines =
            (⟨.ok ⟨block, outcome, (n.firstCandidate config parent).2.map fun x => (x.1.id, x.2)⟩,
              all⟩, n')) := by
  obtain ⟨left, hleft⟩ := Nat.exists_eq_add_of_le' hone
  obtain ⟨e, he, -⟩ := hwf.best
  have htip : n.canonicalTip? = some e.tip := by
    rw [canonicalTip?, ForkChoice.bestChainTip?, he, Option.map_some]
  have hbest : (n.pulledFor config).forkChoice.best = e.tip.id := (hwf.tree.id_eq he).symm
  refine ⟨e.tip, htip, ?_⟩
  rw [author, hleft, authorFrom_succ]
  simp only [pullForBlock, htip, (halone 0).afterPull, handleAll]
  rw [← pulledFor, ← firstCandidate]
  split
  · rename_i hnone
    rw [Bool.and_eq_true, List.isEmpty_iff] at hnone
    exact Or.inl ⟨hnone.1, _, rfl⟩
  · rcases hatt : (n.pulledFor config).attempt config (timelines 0) e.tip
      (n.firstCandidate config e.tip).1 with ⟨⟨_ | _ | ⟨block, outcome⟩, answers⟩, n'⟩
    · exact absurd rfl (attempt_ne_startOver (halone 0) hbest hatt)
    · exact Or.inr (Or.inl ⟨_, _, _, _, rfl, rfl⟩)
    · exact Or.inr (Or.inr ⟨_, _, _, _, _, rfl, rfl⟩)

/-- **A block that was made undisturbed is made of the extrinsics that were pulled first**, on the
canonical tip of that moment, and was offered to the chain of that moment. -/
theorem author_alone (hwf : n.forkChoice.WellFormed) (halone : ∀ i, (timelines i).Alone)
    {r : AuthoredBlock} {answers : List TimelineAnswers}
    (h : n.author config timelines = (⟨.ok r, answers⟩, n')) :
    ∃ parent ctx tip m update n₁, n.canonicalTip? = some parent ∧
      (Candidate.prepare parent (n.pool.pull config.maxExtrinsics).1).1.complete n.engine parent ctx
        = .ok tip ∧
      r.block = tip.block ∧
      r.excluded = (Candidate.prepare parent (n.pool.pull config.maxExtrinsics).1).2.map
        (fun x => (x.1.id, x.2)) ∧
      n.SameChain m ∧ n.SameMemory m ∧ m.offer tip = (.ok (r.outcome, update), n₁) ∧
      n' = ((n₁.updatePool update).releaseOrphans tip.id).2 := by
  have hone : 1 ≤ config.maxAttempts := by
    rw [Nat.one_le_iff_ne_zero]
    intro hnone
    rw [author, hnone] at h
    cases h
  have hchain₀ : n.SameChain (n.pulledFor config) := ⟨rfl, rfl, rfl, rfl, rfl, rfl⟩
  have hmemory₀ : n.SameMemory (n.pulledFor config) := ⟨rfl, rfl⟩
  obtain ⟨parent, htip, ⟨-, all, hend⟩ | ⟨e, res, all, m, -, hend⟩ |
    ⟨block, outcome, res, all, m, hatt, hend⟩⟩ := author_alone_cases hwf halone hone <;>
    rw [hend] at h <;> cases h
  obtain ⟨ctx, tip, m, update, n₁, hmade, hchain, hmemory, hblock, hoffer, heq⟩ :=
    attempt_made_cases (halone 0) hatt
  exact ⟨parent, ctx, tip, m, update, n₁, htip, hmade, hblock, rfl, hchain₀.trans hchain,
    hmemory₀.trans hmemory, hoffer, heq⟩

end Node

end LedgerChain
