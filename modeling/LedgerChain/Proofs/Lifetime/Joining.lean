import LedgerChain.Proofs.Lifetime.Orphans
import LedgerChain.Proofs.Node.Joining

/-!
# Orphans whose parent comes

**An orphan that is kept joins the tree together with its parent**, whatever else the node does
meanwhile (`Lifetime.orphan_joins_with_parent`).  An orphan is kept unless the pool of orphans keeps
another block under its identifier.

An identifier covers the header of a block only, so such a block can be made from any honest one by
putting other extrinsics into it.  If it comes first, the honest block is never kept
(`Lifetime.honest_orphan_displaced`).
-/

namespace LedgerChain

namespace Node

variable [Crypto] {n : Node}

/-- The node after some operations. -/
def performAll (n : Node) (operations : List Operation) : Node := operations.foldl perform n

/-- The blocks that are handed in by some operations. -/
def handingsAll (n : Node) : List Operation → List Handing
  | [] => []
  | operation :: rest => n.handings operation ++ handingsAll (n.perform operation) rest

theorem acts_performAll (hn : n.Orderly) (hsound : n.Sound) (operations : List Operation) :
    Acts Heavy n (n.handingsAll operations) (n.performAll operations) := by
  induction operations generalizing n with
  | nil => exact .refl n
  | cons operation rest ih =>
    have hone := acts_perform hn admits_heavy id hsound.wellFormed operation
    exact hone.trans (ih (hone.orderly hn) ((hone.run hsound.wellFormed).sound hsound))

end Node

namespace Lifetime

open Node

variable [Crypto] {params : Params} {initial : State} {events : List LifeEvent} {m m' : Node}
  {b : Block}

/-- **An orphan that is kept joins the tree with its parent.**  Let the import of a block be answered
with its parent being unknown.

* The block is kept if and only if no other block is kept under its identifier.
* If it is kept, let the node go on in any way in which nothing fails, the root stays, the block does
  not have to make room for another one, and all blocks that are handed in under its identifier have
  its header.  If the block is valid on its parent, then it is in the tree as soon as its parent is.
* The parent is in the tree as soon as its import is accepted. -/
theorem orphan_joins_with_parent (hlife : run params initial events = running m)
    (hpending : m.importBlock b = (.ok .pendingParent, m')) :
    (b ∈ m'.waiting ↔ ∀ w ∈ m.waiting, w.id = b.id → w = b) ∧
    ∀ operations n, m'.performAll operations = n →
      n.forkChoice.tree.rootHeight = m.forkChoice.tree.rootHeight →
      (b ∈ m'.waiting → m.store.faults.Harmless →
        (∀ h ∈ m'.handingsAll operations, ¬ h.Evicts b) →
        (∀ h ∈ m'.handingsAll operations, h.block.id = b.id → h.block.header = b.header) →
        (∀ e, n.forkChoice.tree.find? b.parent = some e →
          ∃ tip, validateBlock n.engine b e.tip = .ok tip) →
        n.hasSeen b.parent = true → n.hasSeen b.id = true) ∧
      ∀ p result n', n.importBlock p = (.ok result, n') → result.isAccepted = true →
        n'.forkChoice.tree.rootHeight = n.forkChoice.tree.rootHeight →
        n'.hasSeen p.id = true := by
  obtain ⟨hsound, -⟩ := (sound params initial events).node hlife
  obtain ⟨hchain, hm', hshape, hclean, hfree, hkept⟩ := (orderly hlife).of_pending hpending
  have hsound' := Step.sound (.aside hchain) hsound
  refine ⟨hkept, ?_⟩
  rintro operations n rfl hroot
  have hacts := acts_performAll hm' hsound' operations
  have hrun := hacts.run hsound'.wellFormed
  refine ⟨fun hwaits hharmless hroom hheader hvalid hparent => ?_,
    fun p result n' himport haccepted hroot' =>
      hasSeen_importBlock (hacts.orderly hm') (hrun.sound hsound') himport haccepted
        (Nat.le_of_eq hroot')⟩
  have hharmless' : m'.store.faults.Harmless := hchain.store ▸ hharmless
  have hwelcome : (m'.performAll operations).Welcomes b :=
    ⟨by rw [hrun.params_eq, hchain.params]; exact hshape, fun he => hvalid _ he⟩
  have hdue := hacts.joins hm' hsound' hharmless' (by rw [hroot, hchain.forkChoice]) hwelcome hroom
    hheader (.waits ⟨hwaits, hclean⟩) hfree
  cases hdue with
  | joined hjoined => exact hjoined
  | waits hawaits =>
    -- an orphan that waited on would be stranded
    exact absurd (hacts.stranded hm' hsound' hharmless'.2 ⟨hawaits.waits, Or.inl hparent⟩) hfree
  | released hmem _ _ => cases hmem

/-! ### Two bodies under one header -/

/-- The block with other extrinsics, which leaves its identifier as it is. -/
def bodySwapped (b : Block) : Block := { b with extrinsics := [⟨[7], 0⟩] }

omit [Crypto] in
theorem header_bodySwapped (b : Block) : (bodySwapped b).header = b.header := rfl

/-- A block whose parent is the first block on genesis. -/
def lateBlock : Block := (blockOn (sideBlock 0) 0).block

/-- The block with other extrinsics comes in, and then the parent. -/
def swappedThenParent : List Operation :=
  [.importBlock (bodySwapped lateBlock), .importBlock (sideBlock 0).block]

omit [Crypto] in
/-- A block waits for its parent and joins the tree with it, although a block with other extrinsics
comes in meanwhile. -/
theorem orphan_joins_after_swapped :
    letI := Crypto.transparent
    ∃ m m', run easyParams {} [startEvent] = running m ∧
      m.importBlock lateBlock = (.ok .pendingParent, m') ∧
      (m'.performAll swappedThenParent).hasSeen lateBlock.id = true := by
  let _ := Crypto.transparent
  have hnode : ((run easyParams {} [startEvent]).node?.map fun m =>
      let m' := (m.importBlock lateBlock).2
      let n := m'.performAll swappedThenParent
      ((m.importBlock lateBlock).1.toOption,
        decide (m.waiting = [] ∧ m.store.faults = {} ∧
          n.forkChoice.tree.rootHeight = m.forkChoice.tree.rootHeight ∧
          n.hasSeen lateBlock.parent = true),
        (m'.handingsAll swappedThenParent).all (fun h =>
          h.after.waiting ≠ h.node.waiting.tail ++ [h.block] ∧
            (h.block.id = lateBlock.id → h.block.header = lateBlock.header)),
        (n.forkChoice.tree.find? lateBlock.parent).all fun e =>
          (validateBlock n.engine lateBlock e.tip).toOption.isSome)) =
      some (some .pendingParent, true, true, true) := by
    decide +kernel
  obtain ⟨m, hm, hend⟩ := Option.map_eq_some_iff.1 hnode
  rw [node?_eq_some_iff] at hm
  simp only [Prod.mk.injEq, decide_eq_true_eq, List.all_eq_true, toOption_eq_some_iff,
    Option.all_eq_true, Option.isSome_iff_exists] at hend
  obtain ⟨hanswer, ⟨hempty, hfaults, hroot, hparent⟩, hhandings, hvalid⟩ := hend
  obtain ⟨hkept, hjoins⟩ := orphan_joins_with_parent hm (Prod.ext hanswer rfl)
  refine ⟨m, _, hm, Prod.ext hanswer rfl, (hjoins swappedThenParent _ rfl hroot).1 (hkept.2 ?_) ?_
    (fun h hh => ?_) (fun h hh => (hhandings h hh).2) hvalid hparent⟩
  · rw [hempty]
    exact fun w hw => absurd hw List.not_mem_nil
  · rw [hfaults]
    exact ⟨rfl, rfl, rfl⟩
  · rintro ⟨-, rest, hbefore, hafter⟩
    exact (hhandings h hh).1 (by rw [hbefore, hafter, List.tail_cons])

omit [Crypto] in
/-- **An honest orphan is displaced**: when it comes in, a block with its header and other extrinsics
waits already.  It is told to wait as well, but it is not kept, and not in the tree when its parent
is.  Nothing fails, the root stays, and the pool of orphans has room. -/
theorem honest_orphan_displaced :
    letI := Crypto.transparent
    ∃ m m' n outcome,
      run easyParams {} [startEvent, .operate (.importBlock (bodySwapped lateBlock))] = running m ∧
      m.importBlock lateBlock = (.ok .pendingParent, m') ∧
      m'.importBlock (sideBlock 0).block = (.ok (.accepted outcome), n) ∧
      lateBlock.parent = (sideBlock 0).id ∧
      (∃ tip, validateBlock n.engine lateBlock (sideBlock 0) = .ok tip) ∧
      n.hasSeen lateBlock.id = false ∧
      (bodySwapped lateBlock).header = lateBlock.header ∧
      n.store.faults = {} ∧ n.forkChoice.tree.rootHeight = 0 ∧ ¬ m.Full := by
  let _ := Crypto.transparent
  have hnode : ((run easyParams {}
      [startEvent, .operate (.importBlock (bodySwapped lateBlock))]).node?.map fun m =>
      let m' := (m.importBlock lateBlock).2
      let n := (m'.importBlock (sideBlock 0).block).2
      ((m.importBlock lateBlock).1.toOption, (m'.importBlock (sideBlock 0).block).1.toOption,
        (validateBlock n.engine lateBlock (sideBlock 0)).toOption.isSome,
        decide (lateBlock.parent = (sideBlock 0).id ∧ n.hasSeen lateBlock.id = false ∧
          n.store.faults = {} ∧ n.forkChoice.tree.rootHeight = 0),
        m.orphans.all fun pool => m.waiting.length < pool.capacity)) =
      some (some .pendingParent, some (.accepted .extended), true, true, true) := by
    decide +kernel
  obtain ⟨m, hm, hend⟩ := Option.map_eq_some_iff.1 hnode
  rw [node?_eq_some_iff] at hm
  simp only [Prod.mk.injEq, decide_eq_true_eq, toOption_eq_some_iff, Option.all_eq_true,
    Option.isSome_iff_exists] at hend
  obtain ⟨hanswer, haccepted, hvalid, ⟨hparent, hunseen, hfaults, hroot⟩, hspace⟩ := hend
  refine ⟨m, _, _, _, hm, Prod.ext hanswer rfl, Prod.ext haccepted rfl, hparent, hvalid, hunseen,
    header_bodySwapped _, hfaults, hroot, ?_⟩
  rintro ⟨pool, hpool, hfull⟩
  exact absurd hfull (Nat.not_le.2 (hspace pool hpool))

end Lifetime

end LedgerChain
