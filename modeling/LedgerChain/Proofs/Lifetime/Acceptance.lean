import LedgerChain.Proofs.Config
import LedgerChain.Proofs.Lifetime.InterruptedAuthors
import LedgerChain.Proofs.Node.Agreement
import LedgerChain.Proofs.Node.Condemned
import LedgerChain.Proofs.Node.MadeBlocks

/-!
# Blocks that the network takes

An author never checks its own blocks.  They are valid on their parents all the same, and their
extrinsics are no larger than consensus allows, since a well-formed configuration lets no larger ones
into the pool.  Other nodes that have the parent do not reject such a block, unless its shape is wrong
(`Lifetime.made_blocks_acceptable`).

The shape can be wrong in one way.  The configuration may let the author put more extrinsics into a
block than consensus allows, and then no other node takes the block
(`Lifetime.made_block_refused`).
-/

namespace LedgerChain

namespace Lifetime

open Node

variable [Crypto] {params : Params} {initial : State} {events : List LifeEvent} {n : Node}

/-! ### The blocks that are handed in -/

/-- The blocks that are handed in by an event. -/
def handings : Lifetime → LifeEvent → List Handing
  | running n, .operate operation => n.handings operation
  | _, _ => []

/-- The blocks that are handed in by further events. -/
def handedFrom (params : Params) (initial : State) : Lifetime → List LifeEvent → List Block
  | _, [] => []
  | l, event :: rest =>
    (l.handings event).map Handing.block ++
      handedFrom params initial (l.next params initial event) rest

/-- The blocks that are handed in over a lifetime. -/
def handed (params : Params) (initial : State) (events : List LifeEvent) : List Block :=
  handedFrom params initial (stopped {}) events

theorem handed_append (params : Params) (initial : State) (events : List LifeEvent)
    (event : LifeEvent) :
    handed params initial (events ++ [event]) = handed params initial events ++
      ((run params initial events).handings event).map Handing.block := by
  rw [handed, handed, run]
  generalize stopped {} = l
  induction events generalizing l with
  | nil => simp [handedFrom]
  | cons first rest ih =>
    simp only [List.cons_append, handedFrom, ih, List.append_assoc, List.foldl_cons]

/-- **What a node remembers as invalid is condemned**, whatever the faults of its store were. -/
theorem condemned {bs : List Block} (hlife : run params initial events = running n)
    (hids : Store.DistinctIds n.store.journal) (hbs : handed params initial events ⊆ bs) :
    ∀ id ∈ n.invalid.ids, n.Condemned bs id := by
  refine events_induct (P := fun events n => Store.DistinctIds n.store.journal →
    handed params initial events ⊆ bs → ∀ id ∈ n.invalid.ids, n.Condemned bs id)
    (fun hstart _ _ => ?_) (fun {events m} operation hm ih hids hbs => ?_)
    (fun faults _ ih hids hbs => ?_) hlife hids hbs
  · obtain ⟨root, s₁, t, -, -, -, rfl⟩ := start_ok_cases hstart
    exact fun id hid => absurd hid List.not_mem_nil
  · rw [handed_append, hm, List.append_subset] at hbs
    have hR := linking_follows params.consensus
    have hkept := (kept hR initial events).node hm
    have hacts := acts_perform (orderly hm) (admits_placed hR) (fun h => h.sound.wellFormed) hkept
      operation
    have hlater : m.store.Later (m.perform operation).store :=
      Run.later (hacts.run_of (admits_placed hR) hkept)
    exact hacts.condemned hR hkept (orderly hm) hids (fun x hx => hbs.2 (List.mem_map_of_mem hx))
      (ih (hids.of_suffix hlater.suffix) hbs.1)
  · rw [handed_append, List.append_subset] at hbs
    exact ih hids hbs.1

/-! ### The blocks of an author -/

variable {c : Config} {m : Making} {made : AuthoredBlock}

theorem valid_of_made (hverify : Crypto.SignaturesVerify)
    (hfit : params.consensus.sealRule.PositionsFit)
    (hlife : run params initial events = running n) {config : AuthoringConfig}
    {moves : List MakingMove} (hmade : (n.making config moves).stage = .returned (.ok made)) :
    ∃ before parent tip, before <+: moves ∧
      (n.making config before).node.canonicalTip? = some parent ∧
      (n.making config moves).node.Stands parent ∧
      Valid (.ofRule params.consensus.sealRule) parent tip ∧ tip.block = made.block := by
  have hR := linking_valid hverify hfit
  have hA : Admits (Node.Kept (Valid (.ofRule params.consensus.sealRule)) params
      (Genesis.tip params initial)) Stands (Placed (Valid (.ofRule params.consensus.sealRule))) :=
    admits_placed hR
  obtain ⟨hn, -⟩ := steady hR hlife config []
  obtain ⟨before, parent, xs, ctx, tip, ⟨rest, hmoves⟩, hparent, hcomplete, hblock⟩ :=
    exists_origin hA Node.Kept.sound hn (orderly hlife) hmade
  obtain ⟨-, hsteady⟩ := steady hR hlife config before
  obtain ⟨hrun, -⟩ := hsteady.run hA Node.Kept.sound config rest
  rw [← making_append, hmoves] at hrun
  rw [engine, hn.params_eq] at hcomplete
  exact ⟨before, parent, tip, ⟨rest, hmoves⟩, hparent,
    hA.run_keep hrun hsteady.inv (hA.canonical hsteady.inv hparent),
    Candidate.valid_of_complete hverify hfit hcomplete, hblock.symm⟩

/-- **The network takes the blocks of an author.**  Let a node run with a well-formed configuration,
whatever comes in, fails or crashes, and let its author return a block, whatever comes in between its
steps.  What an author does in one go is a special case (`Node.exists_moves_author`).

* The block has no more extrinsics than the author may put into it.
* It has the right shape if and only if consensus allows as many extrinsics as it has.  The one other
  reason would be an identifier of the parent that is all zeros.  So it has the right shape if
  consensus allows as many extrinsics as the author may put into a block.
* It is valid on its parent, which was the canonical tip when it was read.
* Another node over the same genesis, with the same consensus parameters, does not reject the block if
  it has the right shape and the node has the parent.  Hashes are to tell apart the blocks that the
  two have written and that came in. -/
theorem made_blocks_acceptable (hconfig : c.WellFormed) (hverify : Crypto.SignaturesVerify)
    (hfit : c.consensus.sealRule.PositionsFit)
    (hpools : ∀ event ∈ events, event.Pools c.pool)
    (hlife : run c.params initial events = running n) {moves : List MakingMove}
    (hm : n.making c.authoring moves = m) (hmade : m.stage = .returned (.ok made)) :
    made.block.extrinsics.length ≤ c.authoring.maxExtrinsics ∧
    (made.block.checkShape c.consensus = .ok () ↔
      made.block.extrinsics.length ≤ c.consensus.maxBlockExtrinsics ∧
        made.block.parent.isNull = false) ∧
    (c.authoring.maxExtrinsics ≤ c.consensus.maxBlockExtrinsics →
      made.block.parent.isNull = false → made.block.checkShape c.consensus = .ok ()) ∧
    (∃ before parent tip, before <+: moves ∧
      (n.making c.authoring before).node.canonicalTip? = some parent ∧
      made.block.parent = parent.id ∧
      validateBlock (.ofRule c.consensus.sealRule) made.block parent = .ok tip) ∧
    ∀ params' events' k, params'.consensus = c.consensus →
      run params' initial events' = running k →
      Block.Unmistakable (made.block :: (Store.writtenBlocks m.node.store.journal ++
        Store.writtenBlocks k.store.journal ++ handed params' initial events')) →
      k.Knows made.block.parent → made.block.checkShape c.consensus = .ok () →
      ∀ cause, (k.importBlock made.block).1 ≠ .ok (.rejected cause) := by
  subst hm
  obtain ⟨before, parent, tip, hbefore, hparent, hstands, hvalid, hblock⟩ :=
    valid_of_made hverify hfit hlife hmade
  have hfollows := hvalid.follows
  have hon : made.block.parent = parent.id := by rw [← hblock]; exact hfollows.parent_eq
  obtain ⟨-, hlimited⟩ := limited_making hlife (grown hpools hlife) c.authoring moves
  rw [hmade] at hlimited
  have hlength : made.block.extrinsics.length ≤ c.authoring.maxExtrinsics := hlimited.1
  have hshape : made.block.checkShape c.consensus = .ok () ↔
      made.block.extrinsics.length ≤ c.consensus.maxBlockExtrinsics ∧
        made.block.parent.isNull = false := by
    obtain ⟨-, -, -, -, -, hsizes⟩ := Config.wellFormed_iff.1 hconfig
    have hversion : made.block.header.version = blockVersion := hblock ▸ hvalid.version_eq
    have hsmall : ∀ x ∈ made.block.extrinsics, x.size ≤ c.consensus.maxExtrinsicSize :=
      fun x hx => (hlimited.2 x hx).2.trans hsizes
    have hheight : made.block.height ≠ 0 := by
      have habove : tip.block.height = parent.height + 1 := hfollows.height_eq
      rw [← hblock, habove]
      exact Nat.succ_ne_zero _
    rw [checkShape_eq_ok_iff]
    exact ⟨fun h => ⟨h.2.1, h.2.2.2.2⟩, fun h => ⟨hversion, h.1, hsmall, hheight, h.2⟩⟩
  refine ⟨hlength, hshape, fun hle hnull => hshape.2 ⟨hlength.trans hle, hnull⟩,
    ⟨before, parent, tip, hbefore, hparent, hon, hblock ▸ hvalid.validated⟩, ?_⟩
  rintro ⟨consensus, runParams⟩ events' k rfl hlife' hclear hknown hright cause
  have hR := linking_valid hverify hfit
  obtain ⟨-, hsteady⟩ := steady hR hlife c.authoring moves
  have hk : k.Kept (Valid (.ofRule c.consensus.sealRule)) ⟨c.consensus, runParams⟩
      (Genesis.tip c.params initial) := (kept hR initial events').node hlife'
  set bs := made.block :: (Store.writtenBlocks (n.making c.authoring moves).node.store.journal ++
    Store.writtenBlocks k.store.journal ++ handed ⟨c.consensus, runParams⟩ initial events') with hbs
  have hwritten : Store.writtenBlocks (n.making c.authoring moves).node.store.journal ⊆ bs := by
    intro b hb
    simp only [hbs, List.mem_cons, List.mem_append, hb, true_or, or_true]
  have hwritten' : Store.writtenBlocks k.store.journal ⊆ bs := by
    intro b hb
    simp only [hbs, List.mem_cons, List.mem_append, hb, true_or, or_true]
  have hhanded : handed ⟨c.consensus, runParams⟩ initial events' ⊆ bs := by
    intro b hb
    simp only [hbs, List.mem_cons, List.mem_append, hb, or_true]
  have hids := hclear.distinctIds hwritten'
  -- the two nodes have the same block and state for the parent
  obtain ⟨sb, hsb⟩ := hknown.exists_stored hk hids
  have hsame := hsteady.inv.agree hk hclear hwritten hwritten'
    (hstands (hclear.distinctIds hwritten)) (hon ▸ hsb)
  have hvalid' : validateBlock k.engine made.block ⟨sb.block, sb.state, 0⟩ = .ok tip := by
    rw [engine, hk.params_eq, ← hblock, ← hvalid.validated]
    exact validateBlock_congr (congrArg StoredBlock.block hsame.symm)
      (congrArg StoredBlock.state hsame.symm)
  exact not_rejected_importBlock hk (condemned hlife' hids hhanded) hids hclear
    List.mem_cons_self (by rw [hk.params_eq]; exact hright) hknown hsb hvalid'

/-! ### Too many extrinsics -/

/-- A configuration with little work and the given limit for the extrinsics of a block. -/
def roomConfig (maxBlockExtrinsics : Nat) : Config where
  consensus := ⟨.work 1, maxBlockExtrinsics, 4096⟩
  pool := { maxExtrinsicSize := 4096 }

/-- A node starts with the pool of a configuration. -/
def poolEvent (c : Config) : LifeEvent := .restart { config := c.pool }

/-- A node starts, and two extrinsics are submitted to it. -/
def twoEvents (c : Config) : List LifeEvent :=
  [poolEvent c, .operate (.submitExtrinsic smallExtrinsic),
    .operate (.submitExtrinsic (.ofCall (.set [3] [4]) 0))]

omit [Crypto] in
/-- If there is room for all that an author may put into a block, another node takes its block. -/
theorem made_blocks_acceptable_two :
    letI := Crypto.transparent
    (roomConfig 100).WellFormed ∧ Crypto.SignaturesVerify ∧
      (roomConfig 100).consensus.sealRule.PositionsFit ∧
      ∃ n k made, run (roomConfig 100).params {} (twoEvents (roomConfig 100)) = running n ∧
        run (roomConfig 100).params {} [poolEvent (roomConfig 100)] = running k ∧
        (n.making (roomConfig 100).authoring (List.replicate 5 (.proceed {}))).stage =
          .returned (.ok made) ∧
        made.block.extrinsics.length = 2 ∧
        ∀ cause, (k.importBlock made.block).1 ≠ .ok (.rejected cause) := by
  let _ := Crypto.transparent
  set c := roomConfig 100
  have hconfig : c.WellFormed := by decide
  have hverify := Crypto.signaturesVerify_transparent
  have hnode : ((run c.params {} [poolEvent c]).node?.bind fun k =>
      (run c.params {} (twoEvents c)).node?.bind fun n =>
      let m := n.making c.authoring (List.replicate 5 (.proceed {}))
      m.stage.made?.map fun made =>
        decide (made.block.parent.isNull = false ∧ made.block.extrinsics.length = 2 ∧
          k.hasSeen made.block.parent = true ∧
          Block.Unmistakable (made.block :: (Store.writtenBlocks m.node.store.journal ++
            Store.writtenBlocks k.store.journal ++ handed c.params {} [poolEvent c])))) =
      some true := by
    decide +kernel
  obtain ⟨k, hk, hrest⟩ := Option.bind_eq_some_iff.1 hnode
  obtain ⟨n, hn, hend⟩ := Option.bind_eq_some_iff.1 hrest
  rw [node?_eq_some_iff] at hk hn
  simp only [Option.map_eq_some_iff, Stage.made?_eq_some_iff, decide_eq_true_eq] at hend
  obtain ⟨made, hmade, hnull, htwo, hseen, hclear⟩ := hend
  have hpools : ∀ event ∈ twoEvents c, event.Pools c.pool :=
    List.forall_mem_cons.2 ⟨.empty, List.forall_mem_cons.2 ⟨trivial,
      List.forall_mem_singleton.2 trivial⟩⟩
  obtain ⟨-, -, hright, -, htaken⟩ :=
    made_blocks_acceptable hconfig hverify trivial hpools hn rfl hmade
  have hshape : made.block.checkShape c.consensus = .ok () := hright (by decide) hnull
  exact ⟨hconfig, hverify, trivial, n, k, made, hn, hk, hmade, htwo,
    htaken c.params [poolEvent c] k rfl hk hclear (Or.inl hseen) hshape⟩

omit [Crypto] in
/-- **An author makes a block that no other node takes**: consensus allows one extrinsic in a block,
and the author puts both of the pending ones into it. -/
theorem made_block_refused :
    letI := Crypto.transparent
    (roomConfig 1).WellFormed ∧
      ∃ n k made, run (roomConfig 1).params {} (twoEvents (roomConfig 1)) = running n ∧
        run (roomConfig 1).params {} [poolEvent (roomConfig 1)] = running k ∧
        (n.author (roomConfig 1).authoring fun _ => {}).1.result = .ok made ∧
        made.block.checkShape (roomConfig 1).consensus = .error (.tooManyExtrinsics 2 1) ∧
        k.Knows made.block.parent ∧
        (k.importBlock made.block).1 = .ok (.rejected (.malformed (.tooManyExtrinsics 2 1))) := by
  let _ := Crypto.transparent
  have hnode : ((run (roomConfig 1).params {} [poolEvent (roomConfig 1)]).node?.bind fun k =>
      (run (roomConfig 1).params {} (twoEvents (roomConfig 1))).node?.bind fun n =>
      (n.author (roomConfig 1).authoring fun _ => {}).1.result.toOption.map fun made =>
        decide (made.block.checkShape (roomConfig 1).consensus = .error (.tooManyExtrinsics 2 1) ∧
          k.hasSeen made.block.parent = true ∧
          (k.importBlock made.block).1 =
            .ok (.rejected (.malformed (.tooManyExtrinsics 2 1))))) = some true := by
    decide +kernel
  obtain ⟨k, hk, hrest⟩ := Option.bind_eq_some_iff.1 hnode
  obtain ⟨n, hn, hend⟩ := Option.bind_eq_some_iff.1 hrest
  rw [node?_eq_some_iff] at hk hn
  simp only [Option.map_eq_some_iff, toOption_eq_some_iff, decide_eq_true_eq] at hend
  obtain ⟨made, hmade, hshape, hseen, hrejected⟩ := hend
  exact ⟨by decide, n, k, made, hn, hk, hmade, hshape, Or.inl hseen, hrejected⟩

end Lifetime

end LedgerChain
