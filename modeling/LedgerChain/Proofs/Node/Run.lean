import LedgerChain.Node.Author
import LedgerChain.Proofs.Node.Decide
import Mathlib.Logic.Relation

/-!
# What operations are made of

Whatever a node is asked to do comes down to three kinds of steps (`Node.Step`): it offers itself a
block, it shuts down, or it does something that leaves its chain alone (`Node.SameChain`).

A run is a sequence of such steps.  Which blocks are offered is known for imported blocks, which are
validated on a block of the tree, and for blocks of one's own, which were made on a canonical tip of
an earlier moment.  `Node.Admits` says what it takes of an invariant and of a property of offered
blocks so that every operation is a run in which all offered blocks have the property.

* `Node.importOne_cases` : a block that is handed in is offered to the chain, after validation on a
  block of the tree, or leaves the chain alone.
* `Node.submitSealed_eq` : a sealed block is given up, or offered.
* `Admits.authorFrom_made` : a block that was made was submitted at some moment of the run.
-/

namespace LedgerChain

namespace Node

/-- The second node has the same chain as the first: the same tree, store and status.  Its pools,
flags and memory of invalid blocks may differ. -/
structure SameChain (n n' : Node) : Prop where
  params : n'.params = n.params
  store : n'.store = n.store
  forkChoice : n'.forkChoice = n.forkChoice
  status : n'.status = n.status
  publications : n'.publications = n.publications
  storedFinalized : n'.storedFinalized = n.storedFinalized

namespace SameChain

variable {n n₁ n₂ : Node}

theorem refl (n : Node) : n.SameChain n := ⟨rfl, rfl, rfl, rfl, rfl, rfl⟩

theorem trans (h₁ : n.SameChain n₁) (h₂ : n₁.SameChain n₂) : n.SameChain n₂ :=
  ⟨h₂.params.trans h₁.params, h₂.store.trans h₁.store, h₂.forkChoice.trans h₁.forkChoice,
    h₂.status.trans h₁.status, h₂.publications.trans h₁.publications,
    h₂.storedFinalized.trans h₁.storedFinalized⟩

end SameChain

variable [Crypto] {n n' : Node} {tip p : ChainTip} {b : Block} {below : TreeEntry}

/-! ### Steps -/

/-- A step of a node that offers itself only blocks with a property. -/
inductive Step (A : Node → ChainTip → Prop) : Node → Node → Prop
  | aside {n n' : Node} (h : n.SameChain n') : Step A n n'
  | offer {n : Node} {tip : ChainTip} (h : A n tip) : Step A n (n.offer tip).2
  | shutdown (n : Node) : Step A n n.shutdown.2

/-- Some steps of a node. -/
abbrev Run (A : Node → ChainTip → Prop) : Node → Node → Prop := Relation.ReflTransGen (Step A)

theorem Run.aside {A : Node → ChainTip → Prop} (h : n.SameChain n') : Run A n n' :=
  .single (.aside h)

theorem Run.induct {A : Node → ChainTip → Prop} {I : Node → Prop}
    (step : ∀ {n n'}, I n → Step A n n' → I n') (hrun : Run A n n') (h : I n) : I n' := by
  induction hrun with
  | refl => exact h
  | tail _ hstep ih => exact step ih hstep

omit [Crypto] in
theorem params_storeFinalized (h : n.storeFinalized = .ok n') : n'.params = n.params := by
  rcases storeFinalized_ok_cases h with ⟨-, rfl⟩ | ⟨store, -, rfl⟩ <;> rfl

omit [Crypto] in
theorem params_settle (n : Node) : n.settle.params = n.params := by
  rw [settle]
  split
  · rfl
  · simp only
    split
    · rfl
    · rename_i stored hstored
      rw [params_storeFinalized hstored]
      rfl

theorem params_decide (n : Node) (tip : ChainTip) : (n.decide tip).2.params = n.params := by
  simp only [Node.decide]
  split
  · rfl
  · split
    · rfl
    · split
      · split <;> rfl
      · exact params_settle _

theorem params_offer (n : Node) (tip : ChainTip) : (n.offer tip).2.params = n.params := by
  rw [offer]
  split
  · rfl
  · exact params_decide _ _

omit [Crypto] in
theorem params_shutdown (n : Node) : n.shutdown.2.params = n.params := by
  simp only [shutdown]
  split
  · rfl
  · split
    · rfl
    · rename_i stored hstored
      have := params_storeFinalized hstored
      split
      · exact this
      · exact this

theorem Step.params_eq {A : Node → ChainTip → Prop} (h : Step A n n') : n'.params = n.params := by
  cases h with
  | aside h => exact h.params
  | offer _ => exact params_offer _ _
  | shutdown => exact params_shutdown _

theorem Run.params_eq {A : Node → ChainTip → Prop} (h : Run A n n') : n'.params = n.params :=
  h.induct (I := fun m => m.params = n.params) (fun hI hstep => hstep.params_eq.trans hI) rfl

theorem Run.engine_eq {A : Node → ChainTip → Prop} (h : Run A n n') : n'.engine = n.engine := by
  rw [engine, engine, h.params_eq]

/-! ### Operations that leave the chain alone -/

omit [Crypto] in
theorem sameChain_reject (n : Node) (id : BlockId) (cause : ImportError) :
    n.SameChain (n.reject id cause).2 := by
  rw [reject]
  split <;> exact ⟨rfl, rfl, rfl, rfl, rfl, rfl⟩

theorem sameChain_holdOrphan (n : Node) (b : Block) : n.SameChain (n.holdOrphan b).2 := by
  rw [holdOrphan]
  split
  · exact .refl n
  · simp only
    split <;> exact ⟨rfl, rfl, rfl, rfl, rfl, rfl⟩

theorem sameChain_importUnknownParent (n : Node) (b : Block) :
    n.SameChain (n.importUnknownParent b).2 := by
  rw [importUnknownParent]
  split
  · exact .refl n
  · split
    · exact .refl n
    · exact .refl n
    · exact sameChain_holdOrphan n b

theorem sameChain_updatePool (n : Node) (update : PoolUpdate) :
    n.SameChain (n.updatePool update) := by
  rw [updatePool]
  split <;> exact ⟨rfl, rfl, rfl, rfl, rfl, rfl⟩

theorem sameChain_takeOrphans (n : Node) (parent : BlockId) :
    n.SameChain (n.takeOrphans parent).2 := by
  rw [takeOrphans]
  split <;> exact ⟨rfl, rfl, rfl, rfl, rfl, rfl⟩

theorem sameChain_giveBack (n : Node) (xs : List Extrinsic) : n.SameChain (n.giveBack xs) :=
  ⟨rfl, rfl, rfl, rfl, rfl, rfl⟩

omit [Crypto] in
theorem sameChain_unregister (n : Node) (token : CancelToken) :
    n.SameChain (n.unregister token) :=
  ⟨rfl, rfl, rfl, rfl, rfl, rfl⟩

theorem sameChain_submitExtrinsic (n : Node) (x : Extrinsic) :
    n.SameChain (n.submitExtrinsic x).2 := by
  rw [submitExtrinsic]
  split <;> exact ⟨rfl, rfl, rfl, rfl, rfl, rfl⟩

/-- A block that is handed in is offered to the chain, after validation on a block of the tree, or
leaves the chain alone. -/
theorem importOne_cases (n : Node) (b : Block) :
    (n.SameChain (n.importOne b).2 ∧ ∀ o, (n.importOne b).1 ≠ .ok (.accepted o)) ∨
      ∃ below tip, n.forkChoice.tree.find? b.id = none ∧
        b.checkShape n.params.consensus = .ok () ∧
        n.forkChoice.tree.find? b.parent = some below ∧
        validateBlock n.engine b below.tip = .ok tip ∧
        n.importOne b =
          match n.submitTip tip with
          | (.error e, n') => (.error e, n')
          | (.ok outcome, n') => (.ok (.ofOutcome outcome), n') := by
  -- the exits in their order; only the last one gets as far as the chain
  by_cases hseen : n.hasSeen b.id = true
  · left
    rw [importOne, if_pos hseen]
    exact ⟨.refl n, fun o h => by cases h⟩
  by_cases hinvalid : n.invalid.contains b.id = true
  · left
    rw [importOne, if_neg hseen, if_pos hinvalid]
    exact ⟨.refl n, fun o h => by cases h⟩
  cases hshape : b.checkShape n.params.consensus with
  | error e =>
    left
    rw [importOne, if_neg hseen, if_neg hinvalid, hshape]
    exact ⟨sameChain_reject n b.id (.malformed e), fun o h => by cases h⟩
  | ok u =>
    cases hbelow : n.forkChoice.tree.find? b.parent with
    | none =>
      left
      rw [importOne, if_neg hseen, if_neg hinvalid, hshape]
      simp only [hbelow]
      refine ⟨sameChain_importUnknownParent n b, fun o h => ?_⟩
      rw [importUnknownParent] at h
      split at h
      · cases h
      · split at h
        · cases h
        · cases h
        · simp only [holdOrphan] at h
          split at h
          · cases h
          · split at h <;> cases h
    | some below =>
      cases hvalid : validateBlock n.engine b below.tip with
      | error e =>
        left
        rw [importOne, if_neg hseen, if_neg hinvalid, hshape]
        simp only [hbelow, importOnParent, hvalid]
        exact ⟨sameChain_reject n b.id e, fun o h => by cases h⟩
      | ok tip =>
        right
        refine ⟨below, tip, ChainTree.find?_eq_none_iff.2 (Bool.eq_false_iff.2 hseen), rfl, rfl,
          hvalid, ?_⟩
        rw [importOne, if_neg hseen, if_neg hinvalid, hshape]
        rcases hsub : n.submitTip tip with ⟨_ | outcome, n'⟩ <;>
          simp only [hbelow, importOnParent, hvalid, hsub]

theorem sameChain_submitTip (n : Node) (tip : ChainTip) :
    (n.offer tip).2.SameChain (n.submitTip tip).2 := by
  rw [submitTip_eq]
  rcases n.offer tip with ⟨_ | ⟨outcome, update⟩, n'⟩
  · exact .refl n'
  · exact sameChain_updatePool n' update

omit [Crypto] in
/-- What is left of a node that shuts down: each pointer is written, or not. -/
theorem shutdown_cases (n : Node) :
    n.SameChain n.shutdown.2 ∨
      ∃ store, n.store.setPointer .canonical n.forkChoice.best = .ok store ∧
        (SameChain { n with store } n.shutdown.2 ∨
          ∃ store', store.setPointer .finalized n.forkChoice.tree.root = .ok store' ∧
            SameChain { n with store := store', storedFinalized := n.forkChoice.tree.root }
              n.shutdown.2) := by
  simp only [shutdown]
  split
  · exact Or.inl ⟨rfl, rfl, rfl, rfl, rfl, rfl⟩
  · rename_i store hset
    refine Or.inr ⟨store, hset, ?_⟩
    split
    · exact Or.inl ⟨rfl, rfl, rfl, rfl, rfl, rfl⟩
    · rename_i stored hstored
      rcases storeFinalized_ok_cases hstored with ⟨-, rfl⟩ | ⟨store', hset', rfl⟩
      · left
        split <;> exact ⟨rfl, rfl, rfl, rfl, rfl, rfl⟩
      · right
        refine ⟨store', hset', ?_⟩
        split <;> exact ⟨rfl, rfl, rfl, rfl, rfl, rfl⟩

theorem submitSealed_eq (n : Node) (a : Attempt) (tip : ChainTip) :
    n.submitSealed a tip =
      if n.flags.isCancelled a.token || n.forkChoice.best ≠ a.parent.id then
        (.startOver, (n.unregister a.token).giveBack tip.block.extrinsics)
      else
        match (n.unregister a.token).offer tip with
        | (.error e, n₁) => (.failed (.chain e), n₁.giveBack tip.block.extrinsics)
        | (.ok (outcome, update), n₁) =>
          (.made tip.block outcome, ((n₁.updatePool update).releaseOrphans tip.id).2) := by
  simp only [submitSealed, offer]
  cases (n.unregister a.token).store.put tip.block tip.state <;> rfl

/-- A block that was made lies above the canonical tip of the moment, was offered, and released the
orphans that waited for it. -/
theorem submitSealed_made_cases {a : Attempt} {tip : ChainTip} {block : Block} {outcome : Outcome}
    (h : n.submitSealed a tip = (.made block outcome, n')) :
    n.forkChoice.best = a.parent.id ∧ block = tip.block ∧
      ∃ update n₁, (n.unregister a.token).offer tip = (.ok (outcome, update), n₁) ∧
        n' = ((n₁.updatePool update).releaseOrphans tip.id).2 := by
  rw [submitSealed_eq] at h
  split at h
  · cases h
  rename_i hgo
  have hbest : n.forkChoice.best = a.parent.id := by
    by_contra hne
    exact hgo (by simp [hne])
  rcases hoffer : (n.unregister a.token).offer tip with ⟨_ | ⟨outcome', update⟩, n₁⟩ <;>
    rw [hoffer] at h
  · cases h
  · cases h
    exact ⟨hbest, rfl, update, n₁, rfl, rfl⟩

/-! ### Operations as runs -/

/-- What it takes of an invariant `I`, of a property `K` of canonical tips of earlier moments and of
a property `A` of offered blocks, so that along every operation of a node the invariant is kept and
all offered blocks have the property. -/
structure Admits (I : Node → Prop) (K A : Node → ChainTip → Prop) : Prop where
  step : ∀ {n n'}, I n → Step A n n' → I n'
  keep : ∀ {n n' p}, I n → K n p → Step A n n' → K n' p
  canonical : ∀ {n p}, I n → n.canonicalTip? = some p → K n p
  imported : ∀ {n b below tip}, I n → n.forkChoice.tree.find? b.id = none →
    b.checkShape n.params.consensus = .ok () → n.forkChoice.tree.find? b.parent = some below →
    validateBlock n.engine b below.tip = .ok tip → A n tip
  made : ∀ {n p xs ctx tip}, I n → K n p → n.forkChoice.best = p.id →
    (Candidate.prepare p xs).1.complete n.engine p ctx = .ok tip → A n tip

namespace Admits

variable {I : Node → Prop} {K A : Node → ChainTip → Prop}

theorem run_inv (hA : Admits I K A) (hrun : Run A n n') (h : I n) : I n' :=
  hrun.induct hA.step h

theorem run_keep (hA : Admits I K A) (hrun : Run A n n') (h : I n) (hp : K n p) : K n' p := by
  have hboth : I n' ∧ K n' p :=
    hrun.induct (I := fun m => I m ∧ K m p)
      (fun hm hstep => ⟨hA.step hm.1 hstep, hA.keep hm.1 hm.2 hstep⟩) ⟨h, hp⟩
  exact hboth.2

theorem importOne (hA : Admits I K A) (h : I n) (b : Block) : Run A n (n.importOne b).2 := by
  rcases n.importOne_cases b with ⟨hsame, -⟩ | ⟨below, tip, hfresh, hshape, hbelow, hvalid, heq⟩
  · exact .aside hsame
  · have hsnd : (n.importOne b).2 = (n.submitTip tip).2 := by
      rw [heq]
      rcases n.submitTip tip with ⟨_ | outcome, n'⟩ <;> rfl
    rw [hsnd]
    have hoffer : Step A n (n.offer tip).2 := .offer (hA.imported h hfresh hshape hbelow hvalid)
    exact .tail (.single hoffer) (.aside (sameChain_submitTip n tip))

theorem importReleased (hA : Admits I K A) (h : I n) (bs : List Block) :
    Run A n (n.importReleased bs).2 := by
  induction bs generalizing n with
  | nil => exact .refl
  | cons b rest ih =>
    have hone := hA.importOne h b
    rw [Node.importReleased]
    rcases hres : n.importOne b with ⟨_ | result, n₁⟩ <;> rw [hres] at hone
    · exact hone
    · have hrest := ih (hA.run_inv hone h)
      simp only
      rcases hres₂ : n₁.importReleased rest with ⟨_ | accepted, n₂⟩ <;> rw [hres₂] at hrest <;>
        exact hone.trans hrest

theorem releaseFrom (hA : Admits I K A) (h : I n) (steps : Nat) (stack : List BlockId) :
    Run A n (n.releaseFrom steps stack).2 := by
  induction steps generalizing n stack with
  | zero => exact .refl
  | succ steps ih =>
    cases stack with
    | nil => exact .refl
    | cons parent stack =>
      have htake : Run A n (n.takeOrphans parent).2 := .aside (sameChain_takeOrphans n parent)
      have hin := hA.importReleased (hA.run_inv htake h) (n.takeOrphans parent).1
      rw [Node.releaseFrom]
      simp only
      rcases hres : (n.takeOrphans parent).2.importReleased (n.takeOrphans parent).1 with
        ⟨_ | accepted, n₂⟩ <;> rw [hres] at hin
      · exact htake.trans hin
      · exact (htake.trans hin).trans (ih (hA.run_inv (htake.trans hin) h) _)

theorem importBlock (hA : Admits I K A) (h : I n) (b : Block) : Run A n (n.importBlock b).2 := by
  have hone := hA.importOne h b
  rw [Node.importBlock]
  rcases hres : n.importOne b with ⟨_ | result, n₁⟩ <;> rw [hres] at hone
  · exact hone
  · simp only
    split
    · exact hone
    · have hrelease := hA.releaseFrom (hA.run_inv hone h) (n₁.orphanCount + 1) [b.id]
      rw [← releaseOrphans] at hrelease
      rcases hres₂ : n₁.releaseOrphans b.id with ⟨_ | _, n₂⟩ <;> rw [hres₂] at hrelease <;>
        exact hone.trans hrelease

theorem handle (hA : Admits I K A) (h : I n) (event : NodeEvent) : Run A n (n.handle event).2 := by
  cases event with
  | importBlock b => exact hA.importBlock h b
  | shutdown => exact .single (.shutdown n)

theorem handleAll (hA : Admits I K A) (h : I n) (events : List NodeEvent) :
    Run A n (n.handleAll events).2 := by
  induction events generalizing n with
  | nil => exact .refl
  | cons event rest ih =>
    have hone := hA.handle h event
    exact hone.trans (ih (hA.run_inv hone h))

theorem submitSealed (hA : Admits I K A) (h : I n) (a : Attempt) (tip : ChainTip)
    (hK : K n a.parent) {xs : List Extrinsic} {ctx : SealContext}
    (hmade : (Candidate.prepare a.parent xs).1.complete n.engine a.parent ctx = .ok tip) :
    Run A n (n.submitSealed a tip).2 := by
  have hun : Run A n (n.unregister a.token) := .aside (sameChain_unregister n a.token)
  rw [submitSealed_eq]
  split
  · exact hun.tail (.aside (sameChain_giveBack _ _))
  · rename_i hgo
    have hbest : n.forkChoice.best = a.parent.id := by
      by_contra hne
      exact hgo (by simp [hne])
    have hoffer : Run A n ((n.unregister a.token).offer tip).2 :=
      hun.tail (.offer (hA.made (hA.run_inv hun h) (hA.run_keep hun h hK) hbest hmade))
    rcases hres : (n.unregister a.token).offer tip with ⟨_ | ⟨outcome, update⟩, n₁⟩ <;>
      rw [hres] at hoffer
    · exact hoffer.tail (.aside (sameChain_giveBack _ _))
    · have hpool : Run A n (n₁.updatePool update) :=
        hoffer.tail (.aside (sameChain_updatePool n₁ update))
      exact hpool.trans (hA.releaseFrom (hA.run_inv hpool h) _ _)

theorem abandon (A : Node → ChainTip → Prop) (n : Node) (a : Attempt) (e : SealError) :
    Run A n (n.abandon a e).2 :=
  .aside ((sameChain_unregister n a.token).trans (sameChain_giveBack _ _))

theorem runAttempt (hA : Admits I K A) (h : I n) (config : AuthoringConfig) (timeline : Timeline)
    (a : Attempt) (hK : K n a.parent) {xs : List Extrinsic}
    (hcandidate : a.candidate = (Candidate.prepare a.parent xs).1) :
    Run A n (n.runAttempt config timeline a).2 := by
  have hsealing := hA.handleAll h timeline.whileSealing
  rw [Node.runAttempt]
  simp only
  rcases hseal : (n.handleAll timeline.whileSealing).2.sealAttempt config timeline a with e | tip
  · exact hsealing.trans (abandon A _ a e)
  · have hcheck := hA.handleAll (hA.run_inv hsealing h) timeline.beforeCheck
    have hboth := hsealing.trans hcheck
    rw [sealAttempt, hcandidate] at hseal
    rw [← hcheck.engine_eq] at hseal
    exact hboth.trans (hA.submitSealed (hA.run_inv hboth h) a tip (hA.run_keep hboth h hK) hseal)

/-- **Making a block is a run**, whatever comes in between its steps. -/
theorem authorFrom (hA : Admits I K A) (h : I n) (config : AuthoringConfig)
    (timelines : Nat → Timeline) (left made : Nat)
    (excluded : List (ExtrinsicId × ExtrinsicError)) :
    Run A n (Node.authorFrom config timelines left made excluded n).2 := by
  induction left generalizing n made excluded with
  | zero => exact .refl
  | succ left ih =>
    rw [Node.authorFrom]
    simp only
    cases hparent : n.canonicalTip? with
    | none =>
      simp only [pullForBlock, hparent]
      exact .refl
    | some parent =>
      simp only [pullForBlock, hparent]
      have hK := hA.canonical h hparent
      set n₁ : Node := { n with pool := (n.pool.pull config.maxExtrinsics).2 }
      have hpull : Run A n n₁ := .aside ⟨rfl, rfl, rfl, rfl, rfl, rfl⟩
      have hevents := hpull.trans (hA.handleAll (hA.run_inv hpull h) (timelines made).afterPull)
      set n₂ := (n₁.handleAll (timelines made).afterPull).2
      set xs := (n.pool.pull config.maxExtrinsics).1
      split
      · exact hevents
      · have hregister : Run A n (n₂.register parent (Candidate.prepare parent xs).1).2 :=
          hevents.tail (.aside ⟨rfl, rfl, rfl, rfl, rfl, rfl⟩)
        have hattempt := hregister.trans (hA.runAttempt (hA.run_inv hregister h) config
          (timelines made) (n₂.register parent (Candidate.prepare parent xs).1).1
          (hA.run_keep hregister h hK) rfl)
        rcases hres : (n₂.register parent (Candidate.prepare parent xs).1).2.runAttempt config
          (timelines made) (n₂.register parent (Candidate.prepare parent xs).1).1 with
          ⟨⟨_ | _ | _, _, _⟩, n₄⟩ <;> rw [hres] at hattempt
        · exact hattempt.trans (ih (hA.run_inv hattempt h) _ _)
        · exact hattempt
        · exact hattempt

/-- The moment at which a sealed block is submitted: it was made on a canonical tip of an earlier
moment. -/
structure Submission (K A : Node → ChainTip → Prop) (n m : Node) (a : Attempt) (tip : ChainTip) :
    Prop where
  run : Run A n m
  parent : K m a.parent
  made : ∃ xs ctx, (Candidate.prepare a.parent xs).1.complete m.engine a.parent ctx = .ok tip

theorem runAttempt_made (hA : Admits I K A) (h : I n) {config : AuthoringConfig}
    {timeline : Timeline} {a : Attempt} (hK : K n a.parent) {xs : List Extrinsic}
    (hcandidate : a.candidate = (Candidate.prepare a.parent xs).1) {block : Block}
    {outcome : Outcome} {answers : List EventAnswer × List EventAnswer}
    (hres : n.runAttempt config timeline a = ((.made block outcome, answers), n')) :
    ∃ m tip, Submission K A n m a tip ∧ m.submitSealed a tip = (.made block outcome, n') := by
  have hsealing := hA.handleAll h timeline.whileSealing
  rw [Node.runAttempt] at hres
  simp only at hres
  rcases hseal : (n.handleAll timeline.whileSealing).2.sealAttempt config timeline a
    with e | tip <;> rw [hseal] at hres
  · simp only [Node.abandon] at hres
    split at hres <;> cases hres
  · have hcheck := hA.handleAll (hA.run_inv hsealing h) timeline.beforeCheck
    have hboth := hsealing.trans hcheck
    set m := ((n.handleAll timeline.whileSealing).2.handleAll timeline.beforeCheck).2 with hm
    rw [sealAttempt, hcandidate, ← Run.engine_eq hcheck] at hseal
    refine ⟨m, tip, ⟨hboth, hA.run_keep hboth h hK, _, _, hseal⟩, ?_⟩
    simp only at hres
    rcases hsub : m.submitSealed a tip with ⟨ending, n₃⟩
    rw [hsub] at hres
    cases hres
    rfl

theorem authorFrom_made (hA : Admits I K A) (h : I n) {config : AuthoringConfig}
    {timelines : Nat → Timeline} {left made : Nat} {excluded : List (ExtrinsicId × ExtrinsicError)}
    {r : AuthoredBlock} {answers : List TimelineAnswers}
    (hres : Node.authorFrom config timelines left made excluded n = (⟨.ok r, answers⟩, n')) :
    ∃ m a tip, Submission K A n m a tip ∧ m.submitSealed a tip = (.made r.block r.outcome, n') := by
  induction left generalizing n made excluded answers with
  | zero => cases hres
  | succ left ih =>
    rw [Node.authorFrom] at hres
    simp only at hres
    cases hparent : n.canonicalTip? with
    | none =>
      simp only [pullForBlock, hparent] at hres
      cases hres
    | some parent =>
      simp only [pullForBlock, hparent] at hres
      have hK := hA.canonical h hparent
      set n₁ : Node := { n with pool := (n.pool.pull config.maxExtrinsics).2 }
      have hpull : Run A n n₁ := .aside ⟨rfl, rfl, rfl, rfl, rfl, rfl⟩
      have hevents := hpull.trans (hA.handleAll (hA.run_inv hpull h) (timelines made).afterPull)
      set n₂ := (n₁.handleAll (timelines made).afterPull).2
      set xs := (n.pool.pull config.maxExtrinsics).1
      split at hres
      · cases hres
      · have hregister : Run A n (n₂.register parent (Candidate.prepare parent xs).1).2 :=
          hevents.tail (.aside ⟨rfl, rfl, rfl, rfl, rfl, rfl⟩)
        have hIr := hA.run_inv hregister h
        have hKr : K (n₂.register parent (Candidate.prepare parent xs).1).2
            (n₂.register parent (Candidate.prepare parent xs).1).1.parent :=
          hA.run_keep hregister h hK
        have hattempt := hregister.trans (hA.runAttempt hIr config (timelines made) _ hKr rfl)
        -- the attempt starts over, fails, or makes the block
        rcases hatt : (n₂.register parent (Candidate.prepare parent xs).1).2.runAttempt config
          (timelines made) (n₂.register parent (Candidate.prepare parent xs).1).1 with
          ⟨⟨_ | _ | _, _, _⟩, n₄⟩ <;> rw [hatt] at hres hattempt
        · simp only at hres
          rcases hrec : Node.authorFrom config timelines left (made + 1)
            (excluded ++ (Candidate.prepare parent xs).2.map fun x => (x.1.id, x.2)) n₄ with
            ⟨⟨result, rest⟩, n₅⟩
          rw [hrec] at hres
          cases hres
          obtain ⟨m, a, tip, hsub, heq⟩ := ih (hA.run_inv hattempt h) hrec
          exact ⟨m, a, tip, ⟨hattempt.trans hsub.run, hsub.parent, hsub.made⟩, heq⟩
        · cases hres
        · cases hres
          obtain ⟨m, tip, hsub, heq⟩ := hA.runAttempt_made hIr hKr rfl hatt
          exact ⟨m, _, tip, ⟨hregister.trans hsub.run, hsub.parent, hsub.made⟩, heq⟩

theorem author (hA : Admits I K A) (h : I n) (config : AuthoringConfig)
    (timelines : Nat → Timeline) : Run A n (n.author config timelines).2 :=
  hA.authorFrom h config timelines config.maxAttempts 0 []

end Admits

end Node

end LedgerChain
