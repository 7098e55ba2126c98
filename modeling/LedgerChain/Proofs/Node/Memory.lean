import LedgerChain.Proofs.Node.Forgetful
import LedgerChain.Proofs.Node.Kept
import LedgerChain.Proofs.OrphanPool

/-!
# The memory of invalid blocks

A node remembers identifiers, and an identifier stands for a header, not for a body.  What it
remembers is still right for all blocks that come later, provided that hashes tell headers and
bodies apart (`Block.Unmistakable`): a remembered header was found bad on a stored parent, where it
is bad with any body (`Node.Condemned`).

So a node that **minds** its memory (`Node.Mindful`) does what a node without a memory does, and
answers what that one answers; it only says that a block is known to be invalid where the other one
turns the block down after a look at it (`ImportAnswer.Covers`, `Mindful.importBlock`).
-/

namespace LedgerChain

/-- What a node answers to an import. -/
abbrev ImportAnswer := Except ChainError ImportResult

/-- The first answer is the second one, or says that the block is known to be invalid where the
second one turns it down. -/
inductive ImportAnswer.Covers : ImportAnswer → ImportAnswer → Prop
  | same (answer : ImportAnswer) : Covers answer answer
  | rejected (cause : ImportError) : Covers (.ok (.rejected .knownInvalid)) (.ok (.rejected cause))
  | stale : Covers (.ok (.rejected .knownInvalid)) (.ok (.ignored .stale))

namespace ImportAnswer

theorem Covers.cases {answer answer' : ImportAnswer} (h : Covers answer answer') :
    (∃ e, answer = .error e ∧ answer' = .error e) ∨
      ∃ r r', answer = .ok r ∧ answer' = .ok r' ∧ r'.isAccepted = r.isAccepted := by
  cases h with
  | same =>
    cases answer with
    | error e => exact Or.inl ⟨e, rfl, rfl⟩
    | ok r => exact Or.inr ⟨r, r, rfl, rfl, rfl⟩
  | rejected cause => exact Or.inr ⟨_, _, rfl, rfl, rfl⟩
  | stale => exact Or.inr ⟨_, _, rfl, rfl, rfl⟩

end ImportAnswer

/-- A store that can be read, and has not lost any blocks. -/
def Faults.Readable (faults : Faults) : Prop := faults.reads = false ∧ faults.lostBlocks = []

instance : DecidablePred Faults.Readable := fun faults =>
  inferInstanceAs (Decidable (faults.reads = false ∧ faults.lostBlocks = []))

theorem Store.getBlock_of_readable {s : Store} (h : s.faults.Readable) (id : BlockId) :
    s.getBlock id = .ok ((s.blocks.find? id).map StoredBlock.block) := by
  rw [getBlock, read, h.1, h.2]
  rfl

theorem Store.find?_of_getBlock {s : Store} {id : BlockId} {b : Block}
    (h : s.getBlock id = .ok (some b)) : ∃ sb, s.blocks.find? id = some sb := by
  rw [getBlock, read] at h
  split at h
  · cases h
  · split at h
    · cases h
    · rw [Except.ok.injEq, Option.map_eq_some_iff] at h
      obtain ⟨sb, hsb, -⟩ := h
      exact ⟨sb, hsb⟩

/-- What reads as missing, and was not lost, is not stored. -/
theorem Store.contains_of_getBlock_none {s : Store} {id : BlockId} (h : s.getBlock id = .ok none)
    (hlost : id ∉ s.faults.lostBlocks) : s.blocks.contains id = false := by
  rw [getBlock, read] at h
  split at h
  · cases h
  · simp only [Except.ok.injEq, Option.map_eq_none_iff] at h
    rw [← Bool.not_eq_true, Table.contains_iff]
    rintro ⟨sb, hsb⟩
    rw [h] at hsb
    cases hsb

theorem RecentIds.mem_of_mem_note {r : RecentIds} {id a : BlockId} (h : a ∈ (r.note id).ids) :
    a ∈ r.ids ∨ a = id := by
  rcases List.mem_cons.1 (List.mem_of_mem_take h) with ha | ha
  · exact Or.inr ha
  · exact Or.inl (List.mem_of_mem_filter ha)

variable [Crypto]

/-- No two of the blocks have different headers under one identifier, or different bodies under one
digest. -/
def Block.Unmistakable (bs : List Block) : Prop :=
  ∀ b ∈ bs, ∀ b' ∈ bs, (b.id = b'.id → b.header = b'.header) ∧
    (b.computedExtrinsicsDigest = b'.computedExtrinsicsDigest → b.extrinsics = b'.extrinsics)

instance : DecidablePred Block.Unmistakable := fun bs =>
  inferInstanceAs (Decidable (∀ b ∈ bs, ∀ b' ∈ bs, (b.id = b'.id → b.header = b'.header) ∧
    (b.computedExtrinsicsDigest = b'.computedExtrinsicsDigest → b.extrinsics = b'.extrinsics)))

theorem Block.Unmistakable.distinctIds {bs : List Block} {w : List StoreWrite}
    (h : Block.Unmistakable bs) (hw : Store.writtenBlocks w ⊆ bs) : Store.DistinctIds w :=
  fun b state b' state' hb hb' => (h b (hw (Store.mem_writtenBlocks.2 ⟨state, hb⟩)) b'
    (hw (Store.mem_writtenBlocks.2 ⟨state', hb'⟩))).1

namespace Node

variable {R : ChainTip → ChainTip → Prop} {params : Params} {genesis tip : ChainTip}
  {bs xs : List Block} {n n' : Node} {b : Block} {id : BlockId}

/-! ### What is remembered -/

/-- One of the given blocks has the identifier, and its header was found bad on its parent, which is
stored. -/
def Condemned (bs : List Block) (n : Node) (id : BlockId) : Prop :=
  ∃ b parent cause, b ∈ bs ∧ b.id = id ∧ n.store.blocks.find? b.parent = some parent ∧
    validateBlock n.engine b ⟨parent.block, parent.state, 0⟩ = .error cause ∧
    cause.isBlockInvalid = true

/-- A node that remembers condemned blocks only.  Its orphans are among the given blocks, and its
store can be read. -/
structure Mindful (bs : List Block) (n : Node) : Prop where
  readable : n.store.faults.Readable
  orphans : ∀ pool, n.orphans = some pool → pool.Within bs
  condemned : ∀ id ∈ n.invalid.ids, n.Condemned bs id

/-- The second node has the same orphans as the first one, and remembers the same. -/
structure SameMemory (n n' : Node) : Prop where
  orphans : n'.orphans = n.orphans
  invalid : n'.invalid = n.invalid

/-- What is condemned stays condemned, since a parent that is stored stays stored. -/
theorem Condemned.later (h : n.Condemned bs id) (hlater : n.store.Later n'.store)
    (hparams : n'.params = n.params) : n'.Condemned bs id := by
  obtain ⟨b, parent, cause, hb, hid, hparent, herror, hinvalid⟩ := h
  refine ⟨b, parent, cause, hb, hid, hlater.find? hparent, ?_, hinvalid⟩
  rwa [engine, hparams]

theorem Mindful.of_run {A : Node → ChainTip → Prop} (h : n.Mindful bs) (hrun : Run A n n')
    (hsame : n.SameMemory n') : n'.Mindful bs where
  readable := hrun.faults_eq ▸ h.readable
  orphans pool hpool := h.orphans pool (hsame.orphans ▸ hpool)
  condemned id hid := (h.condemned id (hsame.invalid ▸ hid)).later hrun.later hrun.params_eq

theorem Mindful.aside (h : n.Mindful bs) (hchain : n.SameChain n') (hsame : n.SameMemory n') :
    n'.Mindful bs :=
  h.of_run (A := fun _ _ => True) (.aside hchain) hsame

/-! ### Deciding does not touch it -/

namespace SameMemory

variable {n₁ n₂ : Node}

omit [Crypto] in
theorem refl (n : Node) : n.SameMemory n := ⟨rfl, rfl⟩

omit [Crypto] in
theorem trans (h₁ : n.SameMemory n₁) (h₂ : n₁.SameMemory n₂) : n.SameMemory n₂ :=
  ⟨h₂.orphans.trans h₁.orphans, h₂.invalid.trans h₁.invalid⟩

end SameMemory

omit [Crypto] in
theorem sameMemory_storeFinalized (h : n.storeFinalized = .ok n') : n.SameMemory n' := by
  rcases storeFinalized_ok_cases h with ⟨-, rfl⟩ | ⟨store, -, rfl⟩
  · exact .refl n'
  · exact ⟨rfl, rfl⟩

omit [Crypto] in
theorem sameMemory_settle (n : Node) : n.SameMemory n.settle := by
  rw [settle]
  split
  · exact ⟨rfl, rfl⟩
  · simp only
    split
    · exact ⟨rfl, rfl⟩
    · rename_i stored hstored
      have hfinal := sameMemory_storeFinalized hstored
      exact ⟨hfinal.orphans, hfinal.invalid⟩

theorem sameMemory_decide (n : Node) (tip : ChainTip) : n.SameMemory (n.decide tip).2 := by
  simp only [Node.decide]
  rcases n.forkChoice.consider tip with ⟨e | outcome, f⟩
  · exact ⟨rfl, rfl⟩
  · simp only
    split
    · exact ⟨rfl, rfl⟩
    · cases n.store.setPointer .canonical f.best with
      | error e =>
        simp only
        split <;> exact ⟨rfl, rfl⟩
      | ok store =>
        have hsettle := sameMemory_settle (cancelAttempts { n with forkChoice := f, store })
        exact ⟨hsettle.orphans, hsettle.invalid⟩

theorem sameMemory_offer (n : Node) (tip : ChainTip) : n.SameMemory (n.offer tip).2 := by
  rw [offer]
  split
  · exact .refl n
  · rename_i store _
    have hdecide := sameMemory_decide { n with store } tip
    exact ⟨hdecide.orphans, hdecide.invalid⟩

theorem sameMemory_updatePool (n : Node) (update : PoolUpdate) :
    n.SameMemory (n.updatePool update) := by
  rw [updatePool]
  split <;> exact ⟨rfl, rfl⟩

theorem sameMemory_submitTip (n : Node) (tip : ChainTip) : n.SameMemory (n.submitTip tip).2 := by
  have hoffer := sameMemory_offer n tip
  rw [submitTip_eq]
  rcases hres : n.offer tip with ⟨e | ⟨outcome, update⟩, n'⟩ <;> rw [hres] at hoffer
  · exact hoffer
  · exact hoffer.trans (sameMemory_updatePool n' update)

omit [Crypto] in
theorem sameMemory_shutdown (n : Node) : n.SameMemory n.shutdown.2 := by
  simp only [shutdown]
  split
  · exact ⟨rfl, rfl⟩
  · split
    · exact ⟨rfl, rfl⟩
    · rename_i stored hstored
      have hfinal := sameMemory_storeFinalized hstored
      split <;> exact ⟨hfinal.orphans, hfinal.invalid⟩

/-! ### One import -/

/-- A node and one without a memory did the same, and the node minds its memory still.  Their
answers are related as given. -/
structure Mirrors (bs : List Block) {α : Type} (ρ : α → α → Prop) (res ref : α × Node) : Prop where
  answer : ρ res.1 ref.1
  same : ref.2 = res.2.forgetful
  mindful : res.2.Mindful bs

theorem Mindful.reject (h : n.Mindful bs) (id : BlockId) (cause : ImportError)
    (hcondemned : cause.isBlockInvalid = true → n.Condemned bs id) :
    (n.reject id cause).2.Mindful bs := by
  rw [Node.reject]
  split
  · rename_i hinvalid
    refine ⟨h.readable, h.orphans, fun a ha => ?_⟩
    rcases List.mem_cons.1 (List.mem_of_mem_take ha) with rfl | hold
    · exact hcondemned hinvalid
    · exact h.condemned a (List.mem_of_mem_filter hold)
  · exact h

theorem Mindful.importUnknownParent (h : n.Mindful bs) (hb : b ∈ bs) :
    (n.importUnknownParent b).2.Mindful bs := by
  rw [Node.importUnknownParent]
  split
  · exact h
  · split
    · exact h
    · exact h
    · simp only [holdOrphan]
      split
      · exact h
      · rename_i pool hpool
        have hpool' := (h.orphans pool hpool).insert hb
        split <;> exact ⟨h.readable, fun p hp => Option.some.inj hp ▸ hpool', h.condemned⟩

theorem importOne_forgetful (hfresh : n.invalid.contains b.id = false) :
    n.forgetful.importOne b = ((n.importOne b).1, (n.importOne b).2.forgetful) := by
  have hnone : n.forgetful.invalid.contains b.id = false := rfl
  have hsees : n.forgetful.hasSeen b.id = n.hasSeen b.id := rfl
  cases hseen : n.hasSeen b.id with
  | true => simp only [importOne, hsees, hseen, if_true]
  | false =>
    simp only [importOne, hsees, hseen, hnone, hfresh, Bool.false_eq_true, if_false,
      consensus_forgetful, forkChoice_forgetful]
    cases b.checkShape n.params.consensus with
    | error e => simp only [reject_forgetful, forgetful_reject]; rfl
    | ok u =>
      cases n.forkChoice.tree.find? b.parent with
      | none => exact importUnknownParent_forgetful n b
      | some below =>
        simp only [importOnParent, engine_forgetful]
        cases validateBlock n.engine b below.tip with
        | error e => simp only [reject_forgetful, forgetful_reject]; rfl
        | ok tip =>
          simp only [submitTip_forgetful]
          rcases n.submitTip tip with ⟨e | outcome, n'⟩ <;> rfl

section Imports

variable (hn : n.Kept R params genesis) (hm : n.Mindful bs)

include hn hm

/-- An import leaves the node minding its memory: a header is noted as bad when it was found bad on
a block of the tree, which is stored. -/
theorem Mindful.importOne (hids : Store.DistinctIds n.store.journal) (hb : b ∈ bs) :
    (n.importOne b).2.Mindful bs := by
  cases hseen : n.hasSeen b.id with
  | true =>
    simp only [Node.importOne, hseen, if_true]
    exact hm
  | false =>
    cases hold : n.invalid.contains b.id with
    | true =>
      simp only [Node.importOne, hseen, hold, Bool.false_eq_true, if_false, if_true]
      exact hm
    | false =>
      simp only [Node.importOne, hseen, hold, Bool.false_eq_true, if_false]
      cases b.checkShape n.params.consensus with
      | error e => exact hm.reject b.id (.malformed e) fun hinvalid => by cases hinvalid
      | ok u =>
        cases hbelow : n.forkChoice.tree.find? b.parent with
        | none => exact hm.importUnknownParent hb
        | some below =>
          simp only [importOnParent]
          cases hvalid : validateBlock n.engine b below.tip with
          | error e =>
            refine hm.reject b.id e fun hinvalid => ?_
            refine ⟨b, _, e, hb, rfl, hn.find?_stored hids hbelow, ?_, hinvalid⟩
            rw [← hvalid]
            exact validateBlock_congr rfl rfl
          | ok tip =>
            have hoffer : Step (fun _ _ => True) n (n.offer tip).2 := .offer trivial
            have hsubmit := hm.of_run (.tail (.single hoffer) (.aside (sameChain_submitTip n tip)))
              (sameMemory_submitTip n tip)
            simp only
            rcases hres : n.submitTip tip with ⟨e | outcome, n'⟩ <;> rw [hres] at hsubmit <;>
              exact hsubmit

/-- A block that is remembered is turned down without a memory, too.  The node is as before. -/
theorem Mindful.covers_of_contains (hids : Store.DistinctIds n.store.journal)
    (hclear : Block.Unmistakable bs) (hb : b ∈ bs) (hold : n.invalid.contains b.id = true)
    (hseen : n.hasSeen b.id = false) :
    ImportAnswer.Covers (.ok (.rejected .knownInvalid)) (n.forgetful.importOne b).1 ∧
      (n.forgetful.importOne b).2 = n.forgetful := by
  obtain ⟨b₀, parent, cause, hb₀, hid, hparent, herror, hinvalid⟩ :=
    hm.condemned b.id (of_decide_eq_true hold)
  have hheader : b.header = b₀.header := (hclear b hb b₀ hb₀).1 hid.symm
  have hsame : b.parent = b₀.parent := by rw [Block.parent, Block.parent, hheader]
  rw [← hsame] at hparent
  have hsees : n.forgetful.hasSeen b.id = false := hseen
  have hnone : n.forgetful.invalid.contains b.id = false := rfl
  simp only [Node.importOne, hsees, hnone, Bool.false_eq_true, if_false, consensus_forgetful,
    forkChoice_forgetful]
  cases b.checkShape n.params.consensus with
  | error e => simp only [reject_forgetful]; exact ⟨.rejected _, trivial⟩
  | ok u =>
    cases hbelow : n.forkChoice.tree.find? b.parent with
    | none =>
      -- the parent has left the tree, but it is stored
      simp only [Node.importUnknownParent, Store.getBlock_of_readable hm.readable, hparent,
        Option.map_some, store_forgetful]
      split <;> exact ⟨.stale, rfl⟩
    | some below =>
      -- the parent in the tree is the one on which the header was found bad
      have hbad : ∃ cause', validateBlock n.engine b below.tip = .error cause' := by
        have hstored := hn.find?_stored hids hbelow
        rw [hparent, Option.some.injEq] at hstored
        rw [validateBlock_congr (q := ⟨parent.block, parent.state, 0⟩) (by rw [hstored])
          (by rw [hstored])]
        exact exists_error_of_isBlockInvalid herror hinvalid hheader (hclear b hb b₀ hb₀).2
      obtain ⟨cause', hbad⟩ := hbad
      simp only [importOnParent, engine_forgetful, hbad, reject_forgetful]
      exact ⟨.rejected cause', trivial⟩

/-- **An import of one block goes the same way with a memory and without one.** -/
theorem Mindful.mirrors_importOne (hids : Store.DistinctIds n.store.journal)
    (hclear : Block.Unmistakable bs) (hb : b ∈ bs) :
    Mirrors bs ImportAnswer.Covers (n.importOne b) (n.forgetful.importOne b) := by
  have hmind := hm.importOne hn hids hb
  cases hold : n.invalid.contains b.id with
  | false =>
    rw [importOne_forgetful hold]
    exact ⟨.same _, rfl, hmind⟩
  | true =>
    cases hseen : n.hasSeen b.id with
    | true =>
      have hsees : n.forgetful.hasSeen b.id = true := hseen
      simp only [Node.importOne, hseen, hsees, if_true]
      exact ⟨.same _, rfl, hm⟩
    | false =>
      obtain ⟨hcovers, hsame⟩ := hm.covers_of_contains hn hids hclear hb hold hseen
      have hres : n.importOne b = (.ok (.rejected .knownInvalid), n) := by
        simp only [Node.importOne, hseen, hold, Bool.false_eq_true, if_false, if_true]
      rw [hres]
      exact ⟨hcovers, hsame, hm⟩

end Imports

end Node

end LedgerChain
