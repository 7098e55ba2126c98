import LedgerChain.Proofs.Node.Memory

/-!
# Operations with and without a memory

From a single import (`Mindful.mirrors_importOne`) the likeness of nodes with and without a memory
of invalid blocks carries over to all that a node does: to the release of orphans, to the operations
that come in while a block is being made, and to making blocks (`Mindful.mirrors_author`).
-/

namespace LedgerChain

/-! ### Related answers -/

/-- Answers to the same operation, where those to imports are related as given. -/
inductive EventAnswer.Rel (ρ : ImportAnswer → ImportAnswer → Prop) :
    EventAnswer → EventAnswer → Prop
  | imported {answer answer' : ImportAnswer} (h : ρ answer answer') :
    Rel ρ (.imported answer) (.imported answer')
  | shutDown (answer : Except ChainError Unit) : Rel ρ (.shutDown answer) (.shutDown answer)

/-- Answers to the operations that came in during an attempt. -/
structure TimelineAnswers.Rel (ρ : ImportAnswer → ImportAnswer → Prop)
    (answers answers' : TimelineAnswers) : Prop where
  afterPull : List.Forall₂ (EventAnswer.Rel ρ) answers.afterPull answers'.afterPull
  whileSealing : List.Forall₂ (EventAnswer.Rel ρ) answers.whileSealing answers'.whileSealing
  beforeCheck : List.Forall₂ (EventAnswer.Rel ρ) answers.beforeCheck answers'.beforeCheck

/-- Reports of the same result, with related answers to what came in meanwhile. -/
structure Node.AuthorReport.Rel (ρ : ImportAnswer → ImportAnswer → Prop)
    (report report' : Node.AuthorReport) : Prop where
  result : report'.result = report.result
  answers : List.Forall₂ (TimelineAnswers.Rel ρ) report.answers report'.answers

section Meet

variable {ρ σ : ImportAnswer → ImportAnswer → Prop}
  (hmeet : ∀ a a' c : ImportAnswer, ρ a c → ρ a' c → σ a a')

/-- Members of two lists that are related to the same list are related to each other. -/
theorem forall₂_meet {α : Type} {r s : α → α → Prop} {l l' k : List α}
    (h : List.Forall₂ r l k) (h' : List.Forall₂ r l' k)
    (hrs : ∀ a a' c, r a c → r a' c → s a a') : List.Forall₂ s l l' := by
  induction h generalizing l' with
  | nil =>
    cases h'
    exact .nil
  | cons hone _ ih =>
    cases h' with
    | cons hone' hmore' => exact .cons (hrs _ _ _ hone hone') (ih hmore')

include hmeet

theorem EventAnswer.Rel.meet {answer answer' other : EventAnswer} (h : answer.Rel ρ other)
    (h' : answer'.Rel ρ other) : answer.Rel σ answer' := by
  cases h with
  | imported hone =>
    cases h' with
    | imported hone' => exact .imported (hmeet _ _ _ hone hone')
  | shutDown answer =>
    cases h'
    exact .shutDown answer

theorem TimelineAnswers.Rel.meet {answers answers' other : TimelineAnswers}
    (h : answers.Rel ρ other) (h' : answers'.Rel ρ other) : answers.Rel σ answers' where
  afterPull := forall₂_meet h.afterPull h'.afterPull fun _ _ _ => EventAnswer.Rel.meet hmeet
  whileSealing :=
    forall₂_meet h.whileSealing h'.whileSealing fun _ _ _ => EventAnswer.Rel.meet hmeet
  beforeCheck := forall₂_meet h.beforeCheck h'.beforeCheck fun _ _ _ => EventAnswer.Rel.meet hmeet

theorem Node.AuthorReport.Rel.meet {report report' other : Node.AuthorReport}
    (h : report.Rel ρ other) (h' : report'.Rel ρ other) : report.Rel σ report' where
  result := h'.result.symm.trans h.result
  answers := forall₂_meet h.answers h'.answers fun _ _ _ => TimelineAnswers.Rel.meet hmeet

end Meet

/-! ### The blocks that come in -/

/-- The blocks that an operation brings in. -/
def NodeEvent.blocks : NodeEvent → List Block
  | .importBlock block => [block]
  | .shutdown => []

/-- The blocks that come in during an attempt. -/
def Timeline.blocks (timeline : Timeline) : List Block :=
  (timeline.afterPull ++ timeline.whileSealing ++ timeline.beforeCheck).flatMap NodeEvent.blocks

theorem Timeline.blocks_subset {timeline : Timeline} {bs : List Block} :
    timeline.blocks ⊆ bs ↔ timeline.afterPull.flatMap NodeEvent.blocks ⊆ bs ∧
      timeline.whileSealing.flatMap NodeEvent.blocks ⊆ bs ∧
        timeline.beforeCheck.flatMap NodeEvent.blocks ⊆ bs := by
  rw [blocks, List.flatMap_append, List.flatMap_append, List.append_subset, List.append_subset,
    and_assoc]

namespace Node

/-- Attempts that ended the same way, with related answers to what came in while the seal was
searched for and after it was found. -/
structure AttemptRel (ρ : ImportAnswer → ImportAnswer → Prop)
    (res ref : AttemptEnd × List EventAnswer × List EventAnswer) : Prop where
  ending : ref.1 = res.1
  whileSealing : List.Forall₂ (EventAnswer.Rel ρ) res.2.1 ref.2.1
  beforeCheck : List.Forall₂ (EventAnswer.Rel ρ) res.2.2 ref.2.2

variable [Crypto] {R : ChainTip → ChainTip → Prop} {params : Params} {genesis tip : ChainTip}
  {bs : List Block} {n n' : Node} {b : Block}

theorem distinctIds_of_run {A : Node → ChainTip → Prop} (hrun : Run A n n')
    (hids : Store.DistinctIds n'.store.journal) : Store.DistinctIds n.store.journal :=
  hids.of_suffix hrun.later.suffix

theorem Mirrors.eq {α : Type} {res ref : α × Node} (h : Mirrors bs Eq res ref) :
    ref = (res.1, res.2.forgetful) :=
  Prod.ext h.answer.symm h.same

/-- What an author reports when an attempt has ended, and does if it starts over. -/
def conclude (config : AuthoringConfig) (timelines : Nat → Timeline) (left made : Nat)
    (excluded : List (ExtrinsicId × ExtrinsicError)) (afterPull : List EventAnswer) :
    (AttemptEnd × List EventAnswer × List EventAnswer) × Node → AuthorReport × Node
  | ((.made block outcome, whileSealing, beforeCheck), n) =>
    (⟨.ok ⟨block, outcome, excluded⟩, [⟨afterPull, whileSealing, beforeCheck⟩]⟩, n)
  | ((.failed e, whileSealing, beforeCheck), n) =>
    (⟨.error e, [⟨afterPull, whileSealing, beforeCheck⟩]⟩, n)
  | ((.startOver, whileSealing, beforeCheck), n) =>
    let (report, n') := authorFrom config timelines left made excluded n
    ({ report with answers := ⟨afterPull, whileSealing, beforeCheck⟩ :: report.answers }, n')

/-- The attempt to seal a candidate, from its registration on. -/
def attempt (n : Node) (config : AuthoringConfig) (timeline : Timeline) (parent : ChainTip)
    (candidate : Candidate) : (AttemptEnd × List EventAnswer × List EventAnswer) × Node :=
  (n.register parent candidate).2.runAttempt config timeline (n.register parent candidate).1

variable (hR : Linking params.consensus R) (hclear : Block.Unmistakable bs)

include hR hclear

/-! ### Releasing orphans -/

theorem Mindful.mirrors_importReleased (hn : n.Kept R params genesis) (hm : n.Mindful bs)
    {released : List Block} (hids : Store.DistinctIds (n.importReleased released).2.store.journal)
    (hreleased : released ⊆ bs) :
    Mirrors bs Eq (n.importReleased released) (n.forgetful.importReleased released) := by
  induction released generalizing n with
  | nil => exact ⟨rfl, rfl, hm⟩
  | cons b rest ih =>
    have hA : Admits (Kept R params genesis) Stands (Placed R) := admits_placed hR
    obtain ⟨hb, hrest⟩ := List.cons_subset.1 hreleased
    have hnow := distinctIds_of_run (hA.importReleased hn (b :: rest)) hids
    have hone := hm.mirrors_importOne hn hnow hclear hb
    have hn₁ := hA.run_inv (hA.importOne hn b) hn
    rw [Node.importReleased] at hids ⊢
    rw [Node.importReleased]
    rcases hres : n.importOne b with ⟨answer, n₁⟩
    rcases href : n.forgetful.importOne b with ⟨answer', n₁'⟩
    rw [hres, href] at hone
    rw [hres] at hids hn₁
    obtain ⟨hcovers, hsame, hm₁⟩ := hone
    have href₁ : n₁' = n₁.forgetful := hsame
    subst href₁
    rcases hcovers.cases with ⟨e, rfl, rfl⟩ | ⟨r, r', rfl, rfl, haccepted⟩
    · exact ⟨rfl, rfl, hm₁⟩
    · have hmore := ih hn₁ hm₁ (by
        simp only at hids
        rcases hrec : n₁.importReleased rest with ⟨_ | accepted, n₂⟩ <;> rw [hrec] at hids <;>
          exact hids) hrest
      simp only [hmore.eq, haccepted]
      rcases hrec : n₁.importReleased rest with ⟨_ | accepted, n₂⟩ <;> rw [hrec] at hmore <;>
        exact ⟨rfl, rfl, hmore.mindful⟩

omit hR hclear in
theorem Mindful.takeOrphans (hm : n.Mindful bs) (parent : BlockId) :
    (n.takeOrphans parent).1 ⊆ bs ∧ (n.takeOrphans parent).2.Mindful bs := by
  rw [Node.takeOrphans]
  cases hpool : n.orphans with
  | none => exact ⟨List.nil_subset _, hm⟩
  | some pool =>
    obtain ⟨hreleased, hleft⟩ := (hm.orphans pool hpool).takeChildren parent
    exact ⟨hreleased, hm.readable, fun p hp => Option.some.inj hp ▸ hleft, hm.condemned⟩

theorem Mindful.mirrors_releaseFrom (hn : n.Kept R params genesis) (hm : n.Mindful bs)
    (steps : Nat) (stack : List BlockId)
    (hids : Store.DistinctIds (n.releaseFrom steps stack).2.store.journal) :
    Mirrors bs Eq (n.releaseFrom steps stack) (n.forgetful.releaseFrom steps stack) := by
  -- by the steps left; an error ends both releases at the same block
  induction steps generalizing n stack with
  | zero => exact ⟨rfl, rfl, hm⟩
  | succ steps ih =>
    cases stack with
    | nil => exact ⟨rfl, rfl, hm⟩
    | cons parent stack =>
      have hA : Admits (Kept R params genesis) Stands (Placed R) := admits_placed hR
      obtain ⟨hsub, hm₁⟩ := hm.takeOrphans parent
      have hn₁ : (n.takeOrphans parent).2.Kept R params genesis :=
        hA.run_inv (.aside (sameChain_takeOrphans n parent)) hn
      rw [Node.releaseFrom] at hids ⊢
      rw [Node.releaseFrom]
      rcases htake : n.takeOrphans parent with ⟨released, n₁⟩
      rw [htake] at hsub hm₁ hn₁
      simp only [takeOrphans_forgetful, htake] at hids ⊢
      have hin := hA.importReleased hn₁ released
      rcases hres : n₁.importReleased released with ⟨e | accepted, n₂⟩
      · simp only [hres] at hids
        have hall := hm₁.mirrors_importReleased hR hclear hn₁ (hres ▸ hids) hsub
        rw [hres] at hall
        simp only [hall.eq]
        exact ⟨rfl, rfl, hall.mindful⟩
      · simp only [hres] at hids hin
        have hn₂ := hA.run_inv hin hn₁
        have hnow := distinctIds_of_run (hA.releaseFrom hn₂ _ _) hids
        have hall := hm₁.mirrors_importReleased hR hclear hn₁ (hres ▸ hnow) hsub
        rw [hres] at hall
        simp only [hall.eq]
        exact ih hn₂ hall.mindful _ hids

/-! ### Imports -/

/-- **An import goes the same way with a memory and without one**, with all orphans that it
releases. -/
theorem Mindful.mirrors_importBlock (hn : n.Kept R params genesis) (hm : n.Mindful bs)
    (hids : Store.DistinctIds (n.importBlock b).2.store.journal) (hb : b ∈ bs) :
    Mirrors bs ImportAnswer.Covers (n.importBlock b) (n.forgetful.importBlock b) := by
  have hA : Admits (Kept R params genesis) Stands (Placed R) := admits_placed hR
  have hone := hm.mirrors_importOne hn (distinctIds_of_run (hA.importBlock hn b) hids) hclear hb
  have hn₁ := hA.run_inv (hA.importOne hn b) hn
  rw [Node.importBlock] at hids ⊢
  rw [Node.importBlock]
  rcases hres : n.importOne b with ⟨answer, n₁⟩
  rcases href : n.forgetful.importOne b with ⟨answer', n₁'⟩
  rw [hres, href] at hone
  rw [hres] at hids hn₁
  obtain ⟨hcovers, hsame, hm₁⟩ := hone
  have href₁ : n₁' = n₁.forgetful := hsame
  subst href₁
  rcases hcovers.cases with ⟨e, rfl, rfl⟩ | ⟨r, r', rfl, rfl, haccepted⟩
  · exact ⟨hcovers, rfl, hm₁⟩
  · cases hacc : r.isAccepted with
    | false =>
      rw [hacc] at haccepted
      simp only [hacc, haccepted, Bool.not_false, if_true]
      exact ⟨hcovers, rfl, hm₁⟩
    | true =>
      -- no other answer covers this one
      have hsame : r' = r := by
        cases hcovers with
        | same => rfl
        | rejected cause => cases hacc
        | stale => cases hacc
      subst hsame
      simp only [hacc, Bool.not_true, Bool.false_eq_true, if_false, releaseOrphans] at hids ⊢
      have hmore := hm₁.mirrors_releaseFrom hR hclear hn₁ (n₁.orphanCount + 1) [b.id] (by
          rcases hrec : n₁.releaseFrom (n₁.orphanCount + 1) [b.id] with ⟨_ | _, n₂⟩ <;>
            rw [hrec] at hids <;> exact hids)
      rw [show n₁.forgetful.orphanCount = n₁.orphanCount from rfl]
      simp only [hmore.eq]
      rcases hrec : n₁.releaseFrom (n₁.orphanCount + 1) [b.id] with ⟨_ | _, n₂⟩ <;>
        rw [hrec] at hmore <;> exact ⟨.same _, rfl, hmore.mindful⟩

theorem Mindful.mirrors_handle (hn : n.Kept R params genesis) (hm : n.Mindful bs)
    {event : NodeEvent} (hids : Store.DistinctIds (n.handle event).2.store.journal)
    (hevent : event.blocks ⊆ bs) :
    Mirrors bs (EventAnswer.Rel ImportAnswer.Covers) (n.handle event)
      (n.forgetful.handle event) := by
  cases event with
  | importBlock b =>
    obtain ⟨hcovers, hsame, hmind⟩ :=
      hm.mirrors_importBlock hR hclear hn hids (List.cons_subset.1 hevent).1
    exact ⟨.imported hcovers, hsame, hmind⟩
  | shutdown =>
    have hstep : Run (fun _ _ => True) n n.shutdown.2 := .single (.shutdown n)
    simp only [Node.handle, shutdown_forgetful]
    exact ⟨.shutDown _, rfl, hm.of_run hstep (sameMemory_shutdown n)⟩

theorem Mindful.mirrors_handleAll (hn : n.Kept R params genesis) (hm : n.Mindful bs)
    (events : List NodeEvent) (hids : Store.DistinctIds (n.handleAll events).2.store.journal)
    (hevents : events.flatMap NodeEvent.blocks ⊆ bs) :
    Mirrors bs (List.Forall₂ (EventAnswer.Rel ImportAnswer.Covers)) (n.handleAll events)
      (n.forgetful.handleAll events) := by
  induction events generalizing n with
  | nil => exact ⟨.nil, rfl, hm⟩
  | cons event rest ih =>
    have hA : Admits (Kept R params genesis) Stands (Placed R) := admits_placed hR
    rw [List.flatMap_cons, List.append_subset] at hevents
    have hn₁ := hA.run_inv (hA.handle hn event) hn
    have hnow := distinctIds_of_run (hA.handleAll hn₁ rest) hids
    have hone := hm.mirrors_handle hR hclear hn hnow hevents.1
    have hmore := ih hn₁ hone.mindful hids hevents.2
    simp only [Node.handleAll, hone.same]
    exact ⟨.cons hone.answer hmore.answer, hmore.same, hmore.mindful⟩

/-! ### Making blocks -/

section Attempts

variable {config : AuthoringConfig} {a : Attempt} {pulled : List Extrinsic}

theorem Mindful.mirrors_submitSealed (hn : n.Kept R params genesis) (hm : n.Mindful bs)
    (hparent : n.Stands a.parent) {ctx : SealContext}
    (hmade : (Candidate.prepare a.parent pulled).1.complete n.engine a.parent ctx = .ok tip)
    (hids : Store.DistinctIds (n.submitSealed a tip).2.store.journal) :
    Mirrors bs Eq (n.submitSealed a tip) (n.forgetful.submitSealed a tip) := by
  have hA : Admits (Kept R params genesis) Stands (Placed R) := admits_placed hR
  have hun := hm.aside (sameChain_unregister n a.token) ⟨rfl, rfl⟩
  have hrun : Run (Placed R) n (n.unregister a.token) := .aside (sameChain_unregister n a.token)
  have hsame : n.forgetful.unregister a.token = (n.unregister a.token).forgetful := rfl
  rw [submitSealed_eq] at hids ⊢
  rw [submitSealed_eq, flags_forgetful, forkChoice_forgetful, hsame, offer_forgetful]
  by_cases hgo : (n.flags.isCancelled a.token || n.forkChoice.best ≠ a.parent.id) = true
  · rw [if_pos hgo, if_pos hgo]
    exact ⟨rfl, rfl, hun.aside (sameChain_giveBack _ _) ⟨rfl, rfl⟩⟩
  · rw [if_neg hgo] at hids ⊢
    rw [if_neg hgo]
    have hbest : n.forkChoice.best = a.parent.id := by
      by_contra hne
      exact hgo (by simp [hne])
    have hstep : Step (Placed R) (n.unregister a.token) ((n.unregister a.token).offer tip).2 :=
      .offer (hA.made (hA.run_inv hrun hn) (hA.run_keep hrun hn hparent) hbest hmade)
    have hoffered := hun.of_run (.single hstep) (sameMemory_offer _ tip)
    have hkept := hA.run_inv (hrun.tail hstep) hn
    rcases hres : (n.unregister a.token).offer tip with ⟨e | ⟨outcome, update⟩, n₁⟩ <;>
      rw [hres] at hids hoffered hkept
    · exact ⟨rfl, rfl, hoffered.aside (sameChain_giveBack _ _) ⟨rfl, rfl⟩⟩
    · have hpool := hoffered.aside (sameChain_updatePool n₁ update)
        (sameMemory_updatePool n₁ update)
      have hkept' := hA.run_inv (.aside (sameChain_updatePool n₁ update)) hkept
      have hrelease := hpool.mirrors_releaseFrom hR hclear hkept' _ _ hids
      simp only [updatePool_forgetful]
      exact ⟨rfl, hrelease.same, hrelease.mindful⟩

theorem Mindful.mirrors_runAttempt (hn : n.Kept R params genesis) (hm : n.Mindful bs)
    {timeline : Timeline} (hparent : n.Stands a.parent)
    (hcandidate : a.candidate = (Candidate.prepare a.parent pulled).1)
    (hids : Store.DistinctIds (n.runAttempt config timeline a).2.store.journal)
    (hsealing : timeline.whileSealing.flatMap NodeEvent.blocks ⊆ bs)
    (hcheck : timeline.beforeCheck.flatMap NodeEvent.blocks ⊆ bs) :
    Mirrors bs (AttemptRel ImportAnswer.Covers) (n.runAttempt config timeline a)
      (n.forgetful.runAttempt config timeline a) := by
  have hA : Admits (Kept R params genesis) Stands (Placed R) := admits_placed hR
  have hrun₁ := hA.handleAll hn timeline.whileSealing
  have hn₁ := hA.run_inv hrun₁ hn
  have hrun₂ := hA.handleAll hn₁ timeline.beforeCheck
  have hn₂ := hA.run_inv hrun₂ hn₁
  rw [Node.runAttempt] at hids ⊢
  rw [Node.runAttempt]
  simp only at hids ⊢
  have hsealed : ∀ m : Node, m.forgetful.sealAttempt config timeline a =
      m.sealAttempt config timeline a := fun _ => rfl
  cases hseal : (n.handleAll timeline.whileSealing).2.sealAttempt config timeline a with
  | error e =>
    simp only [hseal] at hids
    have hfirst := hm.mirrors_handleAll hR hclear hn _
      (distinctIds_of_run (Admits.abandon (Placed R) _ a e) hids) hsealing
    simp only [hfirst.same, hsealed, hseal]
    exact ⟨⟨rfl, hfirst.answer, .nil⟩, rfl, hfirst.mindful.aside
      ((sameChain_unregister _ a.token).trans (sameChain_giveBack _ _)) ⟨rfl, rfl⟩⟩
  | ok tip =>
    simp only [hseal] at hids
    have hmade := hseal
    rw [sealAttempt, hcandidate, ← Run.engine_eq hrun₂] at hmade
    have hboth := hrun₁.trans hrun₂
    have hparent₂ := hA.run_keep hboth hn hparent
    -- the last step is a run, too, so what was written before it has distinct identifiers
    have hids₂ := distinctIds_of_run (hA.submitSealed hn₂ a tip hparent₂ hmade) hids
    have hfirst := hm.mirrors_handleAll hR hclear hn _ (distinctIds_of_run hrun₂ hids₂) hsealing
    have hsecond := hfirst.mindful.mirrors_handleAll hR hclear hn₁ _ hids₂ hcheck
    have hlast := hsecond.mindful.mirrors_submitSealed hR hclear hn₂ hparent₂ hmade hids
    simp only [hfirst.same, hsealed, hseal, hsecond.same]
    exact ⟨⟨hlast.answer.symm, hfirst.answer, hsecond.answer⟩, hlast.same, hlast.mindful⟩

omit hR hclear in
theorem authorFrom_succ (config : AuthoringConfig) (timelines : Nat → Timeline) (left made : Nat)
    (excluded : List (ExtrinsicId × ExtrinsicError)) (n : Node) :
    authorFrom config timelines (left + 1) made excluded n =
      match n.pullForBlock config with
      | (.error e, n₁) => (⟨.error e, []⟩, n₁)
      | (.ok (parent, pulled), n₁) =>
        let (candidate, leftOut) := Candidate.prepare parent pulled
        let (afterPull, n₂) := n₁.handleAll (timelines made).afterPull
        if candidate.extrinsics.isEmpty && !config.allowEmptyBlocks then
          (⟨.error .nothingToAuthor, [{ afterPull }]⟩, n₂)
        else
          conclude config timelines left (made + 1)
            (excluded ++ leftOut.map fun (x, e) => (x.id, e)) afterPull
            (n₂.attempt config (timelines made) parent candidate) := by
  rw [authorFrom]
  rcases n.pullForBlock config with ⟨e | ⟨parent, pulled⟩, n₁⟩
  · rfl
  · simp only
    split
    · rfl
    · rw [attempt]
      rcases Node.runAttempt _ _ _ _ with ⟨⟨_ | _ | _, _, _⟩, n₄⟩ <;> rfl

omit hclear in
theorem run_attempt (hn : n.Kept R params genesis) (config : AuthoringConfig)
    (timeline : Timeline) {parent : ChainTip} (hparent : n.Stands parent)
    (pulled : List Extrinsic) :
    Run (Placed R) n
      (n.attempt config timeline parent (Candidate.prepare parent pulled).1).2 := by
  have hA : Admits (Kept R params genesis) Stands (Placed R) := admits_placed hR
  have hregister : Run (Placed R) n (n.register parent (Candidate.prepare parent pulled).1).2 :=
    .aside ⟨rfl, rfl, rfl, rfl, rfl, rfl⟩
  exact hregister.trans (hA.runAttempt (hA.run_inv hregister hn) config timeline _
    (hA.run_keep hregister hn hparent) rfl)

theorem Mindful.mirrors_attempt (hn : n.Kept R params genesis) (hm : n.Mindful bs)
    {timeline : Timeline} {parent : ChainTip} (hparent : n.Stands parent)
    (hids : Store.DistinctIds
      (n.attempt config timeline parent (Candidate.prepare parent pulled).1).2.store.journal)
    (hsealing : timeline.whileSealing.flatMap NodeEvent.blocks ⊆ bs)
    (hcheck : timeline.beforeCheck.flatMap NodeEvent.blocks ⊆ bs) :
    Mirrors bs (AttemptRel ImportAnswer.Covers)
      (n.attempt config timeline parent (Candidate.prepare parent pulled).1)
      (n.forgetful.attempt config timeline parent (Candidate.prepare parent pulled).1) := by
  have hA : Admits (Kept R params genesis) Stands (Placed R) := admits_placed hR
  have hregister : n.SameChain (n.register parent (Candidate.prepare parent pulled).1).2 :=
    ⟨rfl, rfl, rfl, rfl, rfl, rfl⟩
  exact (hm.aside hregister ⟨rfl, rfl⟩).mirrors_runAttempt hR hclear
    (hA.run_inv (.aside hregister) hn) (hA.run_keep (.aside hregister) hn hparent) rfl hids hsealing
    hcheck

variable {timelines : Nat → Timeline} {left made : Nat}
  {excluded : List (ExtrinsicId × ExtrinsicError)}

omit hR hclear in
theorem node_conclude_of_startOver {afterPull : List EventAnswer}
    {res : (AttemptEnd × List EventAnswer × List EventAnswer) × Node}
    (hstart : res.1.1 = .startOver) :
    (conclude config timelines left made excluded afterPull res).2 =
      (authorFrom config timelines left made excluded res.2).2 := by
  obtain ⟨⟨ending, whileSealing, beforeCheck⟩, m⟩ := res
  cases hstart
  rfl

omit hclear in
/-- If identifiers are distinct in the end, they were when the attempt ended. -/
theorem distinctIds_of_conclude {afterPull : List EventAnswer}
    {res : (AttemptEnd × List EventAnswer × List EventAnswer) × Node}
    (hn : res.2.Kept R params genesis)
    (hids : Store.DistinctIds
      (conclude config timelines left made excluded afterPull res).2.store.journal) :
    Store.DistinctIds res.2.store.journal := by
  obtain ⟨⟨ending, whileSealing, beforeCheck⟩, m⟩ := res
  cases ending with
  | startOver => exact distinctIds_of_run ((admits_placed hR).authorFrom hn _ _ _ _ _) hids
  | failed e => exact hids
  | made block outcome => exact hids

omit hR hclear in
theorem Mirrors.conclude {res ref : (AttemptEnd × List EventAnswer × List EventAnswer) × Node}
    (h : Mirrors bs (AttemptRel ImportAnswer.Covers) res ref)
    {afterPull afterPull' : List EventAnswer}
    (hpulled : List.Forall₂ (EventAnswer.Rel ImportAnswer.Covers) afterPull afterPull')
    (hrest : res.1.1 = .startOver → Mirrors bs (AuthorReport.Rel ImportAnswer.Covers)
      (authorFrom config timelines left made excluded res.2)
      (authorFrom config timelines left made excluded res.2.forgetful)) :
    Mirrors bs (AuthorReport.Rel ImportAnswer.Covers)
      (Node.conclude config timelines left made excluded afterPull res)
      (Node.conclude config timelines left made excluded afterPull' ref) := by
  obtain ⟨⟨ending, whileSealing, beforeCheck⟩, m⟩ := res
  obtain ⟨⟨ending', whileSealing', beforeCheck'⟩, m'⟩ := ref
  obtain ⟨⟨hend, hsealing, hcheck⟩, hsame, hm⟩ := h
  have heq : ending' = ending := hend
  have hm' : m' = m.forgetful := hsame
  subst heq hm'
  have hone : TimelineAnswers.Rel ImportAnswer.Covers ⟨afterPull, whileSealing, beforeCheck⟩
      ⟨afterPull', whileSealing', beforeCheck'⟩ := ⟨hpulled, hsealing, hcheck⟩
  cases ending' with
  | startOver =>
    obtain ⟨⟨hresult, hanswers⟩, hsame', hm₁⟩ := hrest rfl
    exact ⟨⟨hresult, .cons hone hanswers⟩, hsame', hm₁⟩
  | failed e => exact ⟨⟨rfl, .cons hone .nil⟩, rfl, hm⟩
  | made block outcome => exact ⟨⟨rfl, .cons hone .nil⟩, rfl, hm⟩

theorem Mindful.mirrors_authorFrom (hn : n.Kept R params genesis) (hm : n.Mindful bs)
    (hids : Store.DistinctIds
      (authorFrom config timelines left made excluded n).2.store.journal)
    (hblocks : ∀ k < made + left, (timelines k).blocks ⊆ bs) :
    Mirrors bs (AuthorReport.Rel ImportAnswer.Covers)
      (authorFrom config timelines left made excluded n)
      (authorFrom config timelines left made excluded n.forgetful) := by
  induction left generalizing n made excluded with
  | zero => exact ⟨⟨rfl, .nil⟩, rfl, hm⟩
  | succ left ih =>
    have hA : Admits (Kept R params genesis) Stands (Placed R) := admits_placed hR
    obtain ⟨hpulled, hsealing, hcheck⟩ := Timeline.blocks_subset.1 (hblocks made (by omega))
    rw [authorFrom_succ] at hids ⊢
    rw [authorFrom_succ, pullForBlock_forgetful]
    cases htip : n.canonicalTip? with
    | none =>
      simp only [pullForBlock, htip]
      exact ⟨⟨rfl, .nil⟩, rfl, hm⟩
    | some parent =>
      simp only [pullForBlock, htip] at hids ⊢
      have hpull : n.SameChain { n with pool := (n.pool.pull config.maxExtrinsics).2 } :=
        ⟨rfl, rfl, rfl, rfl, rfl, rfl⟩
      have hm₁ := hm.aside hpull ⟨rfl, rfl⟩
      have hkept₁ := hA.run_inv (.aside hpull) hn
      have hparent₁ := hA.run_keep (.aside hpull) hn (hA.canonical hn htip)
      generalize { n with pool := (n.pool.pull config.maxExtrinsics).2 } = n₁ at *
      generalize (n.pool.pull config.maxExtrinsics).1 = xs at *
      have hrun₂ := hA.handleAll hkept₁ (timelines made).afterPull
      have hkept₂ := hA.run_inv hrun₂ hkept₁
      have hparent₂ := hA.run_keep hrun₂ hkept₁ hparent₁
      have hfirst := hm₁.mirrors_handleAll hR hclear hkept₁ (timelines made).afterPull
      by_cases hnothing : ((Candidate.prepare parent xs).1.extrinsics.isEmpty &&
          !config.allowEmptyBlocks) = true
      · rw [if_pos hnothing] at hids ⊢
        rw [if_pos hnothing]
        obtain ⟨hanswers, hsame, hm₂⟩ := hfirst hids hpulled
        exact ⟨⟨rfl, .cons ⟨hanswers, .nil, .nil⟩ .nil⟩, hsame, hm₂⟩
      · rw [if_neg hnothing] at hids ⊢
        rw [if_neg hnothing]
        have hrun₃ := run_attempt hR hkept₂ config (timelines made) hparent₂ xs
        have hkept₃ := hA.run_inv hrun₃ hkept₂
        have hids₃ := distinctIds_of_conclude hR hkept₃ hids
        obtain ⟨hanswers, hsame, hm₂⟩ := hfirst (distinctIds_of_run hrun₃ hids₃) hpulled
        -- the attempt goes the same way, and if it starts over the ones after it do
        have hattempt := hm₂.mirrors_attempt hR hclear hkept₂ hparent₂ hids₃ hsealing hcheck
        rw [hsame]
        refine hattempt.conclude hanswers fun hstart => ?_
        rw [node_conclude_of_startOver hstart] at hids
        exact ih hkept₃ hattempt.mindful hids fun k hk => hblocks k (by omega)

/-- **Making a block goes the same way with a memory and without one**, whatever comes in
between. -/
theorem Mindful.mirrors_author (hn : n.Kept R params genesis) (hm : n.Mindful bs)
    (hids : Store.DistinctIds (n.author config timelines).2.store.journal)
    (hblocks : ∀ k < config.maxAttempts, (timelines k).blocks ⊆ bs) :
    Mirrors bs (AuthorReport.Rel ImportAnswer.Covers) (n.author config timelines)
      (n.forgetful.author config timelines) :=
  hm.mirrors_authorFrom hR hclear hn hids fun k hk => hblocks k (by omega)

end Attempts

end Node

end LedgerChain
