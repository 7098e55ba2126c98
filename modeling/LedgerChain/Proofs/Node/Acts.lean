import LedgerChain.Proofs.Node.Cascade

/-!
# Operations as acts

What a node does comes down to **acts** (`Node.Act`): the import of a block with all that follows, a
block of one's own with what follows, a shutdown, or something that leaves the chain, the orphans and
the memory of invalid blocks alone.  Each act comes with the blocks that are handed in by it.  What is
known of the blocks of one's own is a parameter, as in `Node.Admits`.

Making a block is a sequence of acts, whatever else comes in meanwhile (`Node.acts_author`); which
blocks are handed in is computed beside it (`Node.authorHandings`).
-/

namespace LedgerChain

variable [Crypto]

namespace Node

variable {I : Node → Prop} {K A : Node → ChainTip → Prop} {n n' m : Node} {tip : ChainTip}
  {log log' : List Handing}

/-! ### Acts -/

/-- One thing that a node does, with the blocks that are handed in on the way. -/
inductive Act (A : Node → ChainTip → Prop) : Node → List Handing → Node → Prop
  | aside {n n' : Node} (hchain : n.SameChain n') (hmemory : n.SameMemory n') : Act A n [] n'
  | shutdown (n : Node) : Act A n [] n.shutdown.2
  | imported {n n' : Node} {b : Block} {log : List Handing} {ending : Except ChainError Unit}
      (h : Cascade [b] [] n log ending n') : Act A n log n'
  /-- A block of one's own is offered in vain. -/
  | failed {n : Node} {tip : ChainTip} {e : ChainError} (htip : A n tip)
      (hoffer : (n.offer tip).1 = .error e) : Act A n [] (n.offer tip).2
  /-- A block of one's own is offered, and releases the orphans that wait for it. -/
  | made {n n' : Node} {tip : ChainTip} {outcome : Outcome} {update : PoolUpdate}
      {log : List Handing} {ending : Except ChainError Unit} (htip : A n tip)
      (hparent : n.hasSeen tip.parent = true) (hoffer : (n.offer tip).1 = .ok (outcome, update))
      (h : Cascade [] [tip.id] ((n.offer tip).2.updatePool update) log ending n') : Act A n log n'

/-- Acts one after the other. -/
inductive Acts (A : Node → ChainTip → Prop) : Node → List Handing → Node → Prop
  | refl (n : Node) : Acts A n [] n
  | head {n m n' : Node} {log log' : List Handing} (h : Act A n log m) (rest : Acts A m log' n') :
      Acts A n (log ++ log') n'

theorem Act.acts (h : Act A n log n') : Acts A n log n' := by
  have hone := Acts.head h (.refl n')
  rwa [List.append_nil] at hone

theorem Acts.trans (h : Acts A n log m) (h' : Acts A m log' n') : Acts A n (log ++ log') n' := by
  induction h with
  | refl n => exact h'
  | head hact _ ih =>
    rw [List.append_assoc]
    exact .head hact (ih h')

theorem Acts.skip (h : Acts A n [] m) (h' : Acts A m log n') : Acts A n log n' := h.trans h'

theorem Acts.aside (hchain : n.SameChain n') (hmemory : n.SameMemory n') : Acts A n [] n' :=
  (Act.aside hchain hmemory).acts

theorem sameMemory_made (n : Node) (tip : ChainTip) (update : PoolUpdate) :
    n.SameMemory ((n.offer tip).2.updatePool update) :=
  (sameMemory_offer n tip).trans (sameMemory_updatePool _ update)

theorem run_made (htip : A n tip) (update : PoolUpdate) :
    Run A n ((n.offer tip).2.updatePool update) :=
  .tail (.single (.offer htip)) (.aside (sameChain_updatePool _ update))

theorem Act.orderly (h : Act A n log n') (hn : n.Orderly) : n'.Orderly := by
  cases h with
  | aside _ hmemory => exact orderly_of_orphans_eq hmemory.orphans hn
  | shutdown => exact orderly_of_orphans_eq (sameMemory_shutdown n).orphans hn
  | imported h => exact h.orderly hn
  | @failed tip _ _ _ => exact orderly_of_orphans_eq (sameMemory_offer n tip).orphans hn
  | @made _ tip _ update _ _ _ _ _ h =>
    exact h.orderly (orderly_of_orphans_eq (sameMemory_made n tip update).orphans hn)

theorem Act.run_of (hA : Admits I K A) (h : Act A n log n') (hn : I n) : Run A n n' := by
  cases h with
  | aside hchain _ => exact .aside hchain
  | shutdown => exact .single (.shutdown n)
  | imported h => exact h.run_of hA hn
  | failed htip _ => exact .single (.offer htip)
  | @made _ tip _ update _ _ htip _ _ h =>
    have hoffer := run_made htip update
    exact hoffer.trans (h.run_of hA (hA.run_inv hoffer hn))

theorem Act.run (h : Act Heavy n log n') (hwf : n.forkChoice.WellFormed) : Run Heavy n n' :=
  h.run_of admits_heavy hwf

theorem Acts.orderly (h : Acts A n log n') (hn : n.Orderly) : n'.Orderly := by
  induction h with
  | refl n => exact hn
  | head hact _ ih => exact ih (hact.orderly hn)

theorem Acts.run_of (hA : Admits I K A) (h : Acts A n log n') (hn : I n) : Run A n n' := by
  induction h with
  | refl n => exact .refl
  | head hact _ ih =>
    have hone := hact.run_of hA hn
    exact hone.trans (ih (hA.run_inv hone hn))

theorem Acts.run (h : Acts Heavy n log n') (hwf : n.forkChoice.WellFormed) : Run Heavy n n' :=
  h.run_of admits_heavy hwf

/-! ### The blocks that are handed in while a block is made -/

/-- The blocks that are handed in when an operation comes in. -/
def eventHandings (n : Node) : NodeEvent → List Handing
  | .importBlock block => n.importHandings block
  | .shutdown => []

/-- The blocks that are handed in when some operations come in. -/
def eventsHandings (n : Node) : List NodeEvent → List Handing
  | [] => []
  | event :: rest => n.eventHandings event ++ eventsHandings (n.handle event).2 rest

/-- The blocks that are handed in when a sealed block is submitted. -/
def sealedHandings (n : Node) (a : Attempt) (tip : ChainTip) : List Handing :=
  if n.flags.isCancelled a.token || n.forkChoice.best ≠ a.parent.id then []
  else
    match (n.unregister a.token).offer tip with
    | (.error _, _) => []
    | (.ok (_, update), n₁) => (n₁.updatePool update).releaseHandings tip.id

/-- The blocks that are handed in during a sealing attempt. -/
def attemptHandings (n : Node) (config : AuthoringConfig) (timeline : Timeline) (a : Attempt) :
    List Handing :=
  let n₁ := (n.handleAll timeline.whileSealing).2
  n.eventsHandings timeline.whileSealing ++
    match n₁.sealAttempt config timeline a with
    | .error _ => []
    | .ok tip =>
      n₁.eventsHandings timeline.beforeCheck ++
        (n₁.handleAll timeline.beforeCheck).2.sealedHandings a tip

/-- The blocks that are handed in while an author makes further attempts. -/
def authorHandingsFrom (config : AuthoringConfig) (timelines : Nat → Timeline) :
    (left made : Nat) → Node → List Handing
  | 0, _, _ => []
  | left + 1, made, n =>
    match n.pullForBlock config with
    | (.error _, _) => []
    | (.ok (parent, pulled), n₁) =>
      let n₂ := (n₁.handleAll (timelines made).afterPull).2
      let candidate := (Candidate.prepare parent pulled).1
      n₁.eventsHandings (timelines made).afterPull ++
        if candidate.extrinsics.isEmpty && !config.allowEmptyBlocks then []
        else
          let (a, n₃) := n₂.register parent candidate
          n₃.attemptHandings config (timelines made) a ++
            match n₃.runAttempt config (timelines made) a with
            | ((.startOver, _), n₄) => authorHandingsFrom config timelines left (made + 1) n₄
            | _ => []

/-- The blocks that are handed in while an author makes a block. -/
def authorHandings (n : Node) (config : AuthoringConfig) (timelines : Nat → Timeline) :
    List Handing :=
  authorHandingsFrom config timelines config.maxAttempts 0 n

/-! ### Operations -/

section Operations

variable (hn : n.Orderly)

include hn

theorem acts_handle (A : Node → ChainTip → Prop) (event : NodeEvent) :
    Acts A n (n.eventHandings event) (n.handle event).2 := by
  cases event with
  | importBlock b => exact (Act.imported (hn.cascade_importBlock b)).acts
  | shutdown => exact (Act.shutdown n).acts

theorem acts_handleAll (A : Node → ChainTip → Prop) (events : List NodeEvent) :
    Acts A n (n.eventsHandings events) (n.handleAll events).2 := by
  induction events generalizing n with
  | nil => exact .refl n
  | cons event rest ih =>
    have hone := acts_handle hn A event
    exact hone.trans (ih (hone.orderly hn))

variable (hA : Admits I K A) (hI : ∀ {n}, I n → n.forkChoice.WellFormed) (h : I n)

include hA hI h

theorem acts_submitSealed {a : Attempt} (hK : K n a.parent) {xs : List Extrinsic}
    {ctx : SealContext}
    (hmade : (Candidate.prepare a.parent xs).1.complete n.engine a.parent ctx = .ok tip) :
    Acts A n (n.sealedHandings a tip) (n.submitSealed a tip).2 := by
  have hun : Act A n [] (n.unregister a.token) :=
    .aside (sameChain_unregister n a.token) ⟨rfl, rfl⟩
  have hgive : ∀ (m : Node) xs, Acts A m [] (m.giveBack xs) := fun m xs =>
    .aside (sameChain_giveBack m xs) ⟨rfl, rfl⟩
  rw [submitSealed_eq, sealedHandings]
  split
  · exact hun.acts.skip (hgive _ _)
  · rename_i hgo
    have hbest : n.forkChoice.best = a.parent.id := by
      by_contra hne
      exact hgo (by simp [hne])
    have hrun := hun.run_of hA h
    have htip : A (n.unregister a.token) tip :=
      hA.made (hA.run_inv hrun h) (hA.run_keep hrun h hK) hbest hmade
    have hn₁ := hun.orderly hn
    refine hun.acts.skip ?_
    rcases hoffer : (n.unregister a.token).offer tip with ⟨e | ⟨outcome, update⟩, n₁⟩
    · have hfail : Act A (n.unregister a.token) [] _ := .failed htip (by rw [hoffer])
      rw [hoffer] at hfail
      exact hfail.acts.skip (hgive _ _)
    · have hkeep := (sameMemory_made (n.unregister a.token) tip update).orphans
      have hrelease :=
        (orderly_of_orphans_eq hkeep hn₁).cascade_releaseOrphans tip.id
      obtain ⟨g, hg, -⟩ := (hI h).best
      have hparent : (n.unregister a.token).hasSeen tip.parent = true := by
        rw [(Candidate.follows_of_complete hmade).parent_eq, ← hbest]
        exact ChainTree.contains_iff.2 ⟨g, hg⟩
      have hact := Act.made htip hparent (by rw [hoffer]) hrelease
      rw [hoffer] at hact
      exact hact.acts

theorem acts_runAttempt (config : AuthoringConfig) (timeline : Timeline) {a : Attempt}
    (hK : K n a.parent) {xs : List Extrinsic}
    (hcandidate : a.candidate = (Candidate.prepare a.parent xs).1) :
    Acts A n (n.attemptHandings config timeline a) (n.runAttempt config timeline a).2 := by
  have hsealing := acts_handleAll hn A timeline.whileSealing
  rw [runAttempt, attemptHandings]
  simp only
  rcases hseal : (n.handleAll timeline.whileSealing).2.sealAttempt config timeline a with e | tip
  · refine hsealing.trans (.aside ?_ ⟨rfl, rfl⟩)
    exact (sameChain_unregister _ a.token).trans (sameChain_giveBack _ _)
  · have hn₁ := hsealing.orderly hn
    have hcheck := acts_handleAll hn₁ A timeline.beforeCheck
    have hrun := hsealing.run_of hA h
    have h₁ := hA.run_inv hrun h
    have hrun₁ := hcheck.run_of hA h₁
    rw [sealAttempt, hcandidate, ← hrun₁.engine_eq] at hseal
    exact hsealing.trans (hcheck.trans (acts_submitSealed (hcheck.orderly hn₁) hA hI
      (hA.run_inv hrun₁ h₁) (hA.run_keep (hrun.trans hrun₁) h hK) hseal))

theorem acts_authorFrom (config : AuthoringConfig) (timelines : Nat → Timeline) (left made : Nat)
    (excluded : List (ExtrinsicId × ExtrinsicError)) :
    Acts A n (authorHandingsFrom config timelines left made n)
      (authorFrom config timelines left made excluded n).2 := by
  induction left generalizing n made excluded with
  | zero => exact .refl n
  | succ left ih =>
    rw [authorFrom, authorHandingsFrom]
    cases hparent : n.canonicalTip? with
    | none =>
      simp only [pullForBlock, hparent]
      exact .refl n
    | some parent =>
      simp only [pullForBlock, hparent]
      set n₁ : Node := { n with pool := (n.pool.pull config.maxExtrinsics).2 }
      have hpull : Acts A n [] n₁ := .aside ⟨rfl, rfl, rfl, rfl, rfl, rfl⟩ ⟨rfl, rfl⟩
      have hevents := hpull.skip (acts_handleAll (hpull.orderly hn) A (timelines made).afterPull)
      set n₂ := (n₁.handleAll (timelines made).afterPull).2
      set xs := (n.pool.pull config.maxExtrinsics).1
      split
      · rw [List.append_nil]
        exact hevents
      · have hregister : Acts A n₂ [] (n₂.register parent (Candidate.prepare parent xs).1).2 :=
          .aside ⟨rfl, rfl, rfl, rfl, rfl, rfl⟩ ⟨rfl, rfl⟩
        have hready := hevents.trans hregister
        have hn₃ := hready.orderly hn
        have hrun := hready.run_of hA h
        have hattempt := acts_runAttempt hn₃ hA hI (hA.run_inv hrun h) config (timelines made)
          (a := (n₂.register parent (Candidate.prepare parent xs).1).1)
          (hA.run_keep hrun h (hA.canonical h hparent)) rfl
        -- the attempt hands in what comes in while it is made, and then the next ones theirs
        refine hevents.trans (hregister.skip ?_)
        rcases hres : (n₂.register parent (Candidate.prepare parent xs).1).2.runAttempt config
          (timelines made) (n₂.register parent (Candidate.prepare parent xs).1).1 with
          ⟨⟨_ | _ | _, _, _⟩, n₄⟩ <;> rw [hres] at hattempt
        · exact hattempt.trans (ih (hattempt.orderly hn₃)
            (hA.run_inv (hrun.trans (hattempt.run_of hA (hA.run_inv hrun h))) h) _ _)
        · rw [List.append_nil]
          exact hattempt
        · rw [List.append_nil]
          exact hattempt

/-- **Making a block is a sequence of acts**, whatever comes in between its steps. -/
theorem acts_author (config : AuthoringConfig) (timelines : Nat → Timeline) :
    Acts A n (n.authorHandings config timelines) (n.author config timelines).2 :=
  acts_authorFrom hn hA hI h config timelines config.maxAttempts 0 []

end Operations

end Node

end LedgerChain
