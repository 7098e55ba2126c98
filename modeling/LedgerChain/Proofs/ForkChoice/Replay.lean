import LedgerChain.Proofs.ForkChoice.Consider
import LedgerChain.Proofs.Tree.Representation

/-!
# Following the canonical chain

The canonical **chain** is the list of blocks from the root of the tree up to the canonical tip.  Who
keeps a copy of it need not look at the tree: the outcomes say which blocks to take off the copy and
which ones to put on (`Outcome.replay`).

Here a fork choice takes over a tree that was grown in any way, and then considers blocks of any
weight, goes back to blocks of the tree and moves its root, in any order.  Its outcomes say exactly
how the chain changes, and a copy that is kept by them ends with the chain at every moment
(`outcomes_replay_chain`).  Only a rollback without a block before it is not told to anybody; the
chain has to be read again after it.

A block that overflows the tree is the exception.  In 64 bits it has no way from any block that was
there before, so if it is the best tip the answer is an error, with the block in the tree
(`Rooted.consider_overflowing`).
-/

namespace LedgerChain

/-! ### Copies of a chain -/

/-- A chain without its last block, which has to be the given one. -/
def takeOff (chain : List Block) (b : Block) : Option (List Block) :=
  if chain.getLast? = some b then some chain.dropLast else none

/-- What becomes of a copy of the canonical chain by the outcome for a block: retracted blocks are
taken off one by one, and applied blocks put on.  There is no result if the copy does not end with
the retracted blocks. -/
def Outcome.replay (attached : Block) (copy : List Block) : Outcome → Option (List Block)
  | extended => some (copy ++ [attached])
  | switched retract apply => (retract.foldlM takeOff copy).map fun kept => kept ++ apply
  | ignored _ => some copy

theorem foldlM_takeOff (kept retract : List Block) :
    retract.foldlM takeOff (kept ++ retract.reverse) = some kept := by
  induction retract with
  | nil => simp
  | cons b rest ih =>
    have hfirst : takeOff (kept ++ (b :: rest).reverse) b = some (kept ++ rest.reverse) := by
      simp [takeOff, ← List.append_assoc]
    rw [List.foldlM_cons, hfirst]
    exact ih

namespace ForkChoice

variable [Crypto] [Sums] {f f' : ForkChoice} {t : ChainTree} {id : BlockId} {e below : TreeEntry}
  {tip : ChainTip}

/-- The blocks from the root of the tree up to the canonical tip. -/
def chain (f : ForkChoice) : List Block := (f.tree.blocks (f.tree.lineage f.best)).reverse

/-- What the answer to a block says about the fork choice before and after it.

* An error leaves everything as it was, and never tells of a missing way or block; so does a block
  that is known or stale.
* A block that is not better is a new leaf, and all else stays.
* A block that extends the chain is its new last block.
* A switch applies at least one block.  The chain ended with the retracted blocks, the last one
  being the first retracted; it keeps the rest, with the root at least, and ends with the applied
  blocks.  No block is both retracted and applied. -/
def Told (f : ForkChoice) (tip : ChainTip) (f' : ForkChoice) : Except ChainError Outcome → Prop
  | .error e => f' = f ∧ (∀ a b, e ≠ .noReorg a b) ∧ ∀ id, e ≠ .missingBlock id
  | .ok (.ignored .alreadyKnown) => f' = f
  | .ok (.ignored .stale) => f' = f
  | .ok (.ignored .notBetter) =>
    (∃ below, f.tree.Fits tip below ∧ f' = { f with tree := f.tree.graft tip below }) ∧
      tip.id ∈ f'.tree.tips ∧ f'.chain = f.chain
  | .ok .extended => f'.chain = f.chain ++ [tip.block]
  | .ok (.switched retract apply) =>
    apply ≠ [] ∧
      (∃ kept, kept ≠ [] ∧ f.chain = kept ++ retract.reverse ∧ f'.chain = kept ++ apply) ∧
      ∀ b ∈ retract, ∀ c ∈ apply, b.id ≠ c.id

/-! ### The chain of a fork choice -/

theorem Rooted.isChain_chain (h : f.Rooted) : f.chain.IsChain fun below b => b.On below :=
  List.isChain_reverse.2 (h.tree.isChain_blocks f.best)

theorem Rooted.chain_ne_nil (h : f.Rooted) : f.chain ≠ [] := by
  obtain ⟨e, he, -⟩ := h.best
  rw [chain, h.tree.lineage_eq_cons he, ChainTree.blocks_cons he]
  exact mt List.reverse_eq_nil_iff.1 (List.cons_ne_nil _ _)

theorem Rooted.chain_graft (h : f.Rooted) (hfits : f.tree.Fits tip below) :
    chain { f with tree := f.tree.graft tip below } = f.chain := by
  obtain ⟨e, he, -⟩ := h.best
  unfold chain
  rw [h.tree.lineage_graft hfits.fresh hfits.on_tree he]
  congr 1
  refine ChainTree.blocks_congr fun id hid => ?_
  obtain ⟨g, hg⟩ := h.tree.find?_of_mem_lineage_left hid
  obtain ⟨g', hg', htip, -⟩ := ChainTree.find?_graft_of_find? hfits.fresh hfits.on_tree hg
  exact ⟨g, g', hg, hg', htip⟩

theorem Rooted.chain_cutBack (h : f.Rooted) (hmem : t.root ∈ f.tree.lineage f.best)
    (hpart : f.tree.IsUpperPart t.root t) :
    ∃ final, f.chain = final ++ chain { f with tree := t } := by
  have h' := h.cutBack hmem hpart
  obtain ⟨e, he, -⟩ := h'.best
  have hline := h'.tree.lineage_eq_append h.tree hpart.within he
  refine ⟨(f.tree.blocks (f.tree.lineage t.root).tail).reverse, ?_⟩
  unfold chain
  rw [← List.reverse_append]
  congr 1
  rw [hline, ChainTree.blocks_append]
  congr 1
  refine (ChainTree.blocks_congr fun id hid => ?_).symm
  obtain ⟨g, hg⟩ := h'.tree.find?_of_mem_lineage_left hid
  exact ⟨g, g, (hpart.of_find? hg).2, hg, rfl⟩

theorem Rooted.chain_of_leads (h : f.Rooted) {way : Reorg} (hway : f.tree.Leads way f.best id) :
    ∃ kept, kept ≠ [] ∧ f.chain = kept ++ (f.tree.blocks way.down).reverse ∧
      (f.setBest id).chain = kept ++ f.tree.blocks way.up := by
  obtain ⟨e, he⟩ := h.tree.find?_of_mem_lineage_left hway.pivot_mem
  refine ⟨(f.tree.blocks (f.tree.lineage way.pivot)).reverse, ?_, ?_, ?_⟩
  · rw [h.tree.lineage_eq_cons he, ChainTree.blocks_cons he]
    exact mt List.reverse_eq_nil_iff.1 (List.cons_ne_nil _ _)
  · rw [chain, hway.lineage_start, ChainTree.blocks_append, List.reverse_append]
  · rw [chain, tree_setBest, best_setBest, hway.lineage_dest, ChainTree.blocks_append,
      List.reverse_append, ChainTree.blocks_reverse, List.reverse_reverse]

theorem Rooted.up_ne_nil (h : f.Rooted) {way : Reorg} (hway : f.tree.Leads way f.best id)
    (he : f.tree.find? id = some e) (htip : id ∈ f.tree.tips) (hne : id ≠ f.best) :
    way.up ≠ [] := by
  intro hnil
  -- the tip would be the pivot, so the canonical tip would lie above it
  obtain ⟨p, hp⟩ := h.tree.find?_of_mem_lineage_left hway.pivot_mem
  have hline := hway.lineage_dest
  rw [hnil, List.reverse_nil, List.nil_append, h.tree.lineage_eq_cons he,
    h.tree.lineage_eq_cons hp, List.cons.injEq] at hline
  obtain ⟨c, hc, -⟩ := h.tree.exists_child_on_lineage (hline.1 ▸ hway.pivot_mem) hne
  obtain ⟨e', he', hleaf⟩ := h.tree.mem_tips.1 htip
  rw [ChainTree.children, he', Option.map_some, Option.getD_some, hleaf] at hc
  cases hc

/-- **A move along a way is told as it happens**, to whoever knows the chain before it. -/
theorem Rooted.told_moved (h : f.Rooted) {way : Reorg} (hway : f.tree.Leads way f.best id)
    (he : f.tree.find? id = some e) (htip : id ∈ f.tree.tips) (hne : id ≠ f.best)
    {g : TreeEntry} (hg : f.tree.find? tip.id = some g) (hblock : g.tip.block = tip.block)
    (hsame : f'.chain = f.chain) : f'.Told tip (f.setBest id) (.ok (moved f.tree tip.id way)) := by
  obtain ⟨kept, hkept, hbefore, hafter⟩ := h.chain_of_leads hway
  rw [← hsame] at hbefore
  have hdown : (f.tree.blocks way.down).map Block.id = way.down := h.tree.map_id_blocks fun x hx =>
    h.tree.find?_of_mem_lineage_left (hway.mem_of_mem_down hx)
  have hup : (f.tree.blocks way.up).map Block.id = way.up := h.tree.map_id_blocks fun x hx =>
    h.tree.find?_of_mem_lineage_left (hway.mem_of_mem_up hx)
  unfold moved
  split
  · rename_i hone
    rw [hone.1] at hbefore
    rw [hone.2, ChainTree.blocks_cons hg, hblock] at hafter
    rw [Told, hafter, hbefore]
    exact congrArg (· ++ _) (List.append_nil _).symm
  · refine ⟨fun hnil => ?_, ⟨kept, hkept, hbefore, hafter⟩, fun b hb c hc heq => ?_⟩
    · rw [hnil] at hup
      exact h.up_ne_nil hway he htip hne hup.symm
    · have hbdown : b.id ∈ way.down := hdown ▸ List.mem_map_of_mem hb
      have hcup : c.id ∈ way.up := hup ▸ List.mem_map_of_mem hc
      exact hway.apart _ hbdown (hway.mem_of_mem_up (heq ▸ hcup))

theorem Told.head?_chain {answer : Except ChainError Outcome} (h : f.Told tip f' answer)
    (hne : f.chain ≠ []) : f'.chain.head? = f.chain.head? := by
  rcases answer with e | _ | ⟨retract, apply⟩ | _ | _ | _
  · rw [h.1]
  · rw [show f'.chain = _ from h, List.head?_append_of_ne_nil _ hne]
  · obtain ⟨-, ⟨kept, hkept, hbefore, hafter⟩, -⟩ := h
    rw [hbefore, hafter, List.head?_append_of_ne_nil _ hkept, List.head?_append_of_ne_nil _ hkept]
  · rw [show f' = f from h]
  · rw [h.2.2]
  · rw [show f' = f from h]

/-- **Who replays an outcome on a copy that ends with the chain has one that ends with the new
chain.** -/
theorem Told.replay {outcome : Outcome} (h : f.Told tip f' (.ok outcome)) (final : List Block) :
    outcome.replay tip.block (final ++ f.chain) = some (final ++ f'.chain) := by
  rcases outcome with _ | ⟨retract, apply⟩ | _ | _ | _
  · rw [Outcome.replay, show f'.chain = _ from h, List.append_assoc]
  · obtain ⟨-, ⟨kept, -, hbefore, hafter⟩, -⟩ := h
    rw [Outcome.replay, hbefore, hafter, ← List.append_assoc, foldlM_takeOff, Option.map_some,
      List.append_assoc]
  · rw [Outcome.replay, show f' = f from h]
  · rw [Outcome.replay, h.2.2]
  · rw [Outcome.replay, show f' = f from h]

/-! ### Considering a block -/

/-- **The answer to a block tells what happens**, and the fork choice keeps its shape. -/
theorem Rooted.told_consider (h : f.Rooted) (hfit : ¬ f.tree.Overflows tip) :
    f.Told tip (f.consider tip).2 (f.consider tip).1 ∧ (f.consider tip).2.Rooted := by
  rcases consider_attached_or hfit with ⟨-, answer, hcons, hanswer⟩ | ⟨below, hfits, hcons⟩
  · rw [hcons]
    refine ⟨?_, h⟩
    obtain ⟨-, rfl⟩ | ⟨-, rfl⟩ | ⟨e, rfl⟩ := hanswer
    · exact rfl
    · exact rfl
    · exact ⟨rfl, fun _ _ heq => (by cases heq), fun _ heq => (by cases heq)⟩
  · have hg := h.graft hfits
    obtain ⟨id, e, -, htip, he, hfollow⟩ := hg.follow_cases tip.id
    have hself := ChainTree.find?_graft_self f.tree tip below
    rw [hcons]
    obtain ⟨-, heq⟩ | ⟨hne, way, hway, heq⟩ := hfollow
    · rw [heq]
      refine ⟨⟨⟨below, hfits, rfl⟩, ?_, h.chain_graft hfits⟩, hg⟩
      exact (ChainTree.mem_tips_graft below).2 (Or.inl rfl)
    · rw [heq]
      -- the chain before the move is the one before the block was attached
      exact ⟨hg.told_moved hway he htip hne hself rfl (h.chain_graft hfits).symm, hg.setBest he⟩

theorem Rooted.setBest_best (h : f.Rooted) : f.setBest f.best = f := by
  obtain ⟨e, he, hh⟩ := h.best
  simp only [ForkChoice.setBest, he, Option.map_some, Option.getD_some, hh]

/-! ### Everything that can happen -/

/-- What can happen to a fork choice. -/
inductive Event where
  | consider (tip : ChainTip)
  /-- A block is considered, and the canonical tip goes back to where it was. -/
  | heldBack (tip : ChainTip)
  | rollback (id : BlockId)
  | advanceRoot

/-- The fork choice after a rollback; it stays as it is if that fails. -/
def rolledBack (f : ForkChoice) (id : BlockId) : ForkChoice :=
  match f.rollback id with
  | .ok f' => f'
  | .error _ => f

/-- The fork choice after its root moved up; it stays as it is if that fails. -/
def rootAdvanced (f : ForkChoice) : ForkChoice :=
  match f.advanceRoot with
  | .ok (_, f') => f'
  | .error _ => f

/-- The fork choice after an event. -/
def next (f : ForkChoice) : Event → ForkChoice
  | .consider tip => (f.consider tip).2
  | .heldBack tip => (f.consider tip).2.rolledBack f.best
  | .rollback id => f.rolledBack id
  | .advanceRoot => f.rootAdvanced

/-- An event overflows if the block that is considered does. -/
def EventOverflows (f : ForkChoice) : Event → Prop
  | .consider tip => f.tree.Overflows tip
  | .heldBack tip => f.tree.Overflows tip
  | .rollback _ => False
  | .advanceRoot => False

theorem Rooted.rolledBack (h : f.Rooted) (id : BlockId) : (f.rolledBack id).Rooted := by
  unfold ForkChoice.rolledBack rollback
  by_cases hin : f.tree.contains id = true
  · obtain ⟨e, he⟩ := ChainTree.contains_iff.1 hin
    rw [if_pos hin]
    exact h.setBest he
  · rw [if_neg hin]
    exact h

theorem Rooted.rolledBack_setBest (h : f.Rooted) (id : BlockId) :
    (f.setBest id).rolledBack f.best = f := by
  rw [ForkChoice.rolledBack, h.rollback_eq id]

/-- **A block that is held back leaves the chain as it was.** -/
theorem Rooted.heldBack (h : f.Rooted) (hfit : ¬ f.tree.Overflows tip) :
    (f.next (.heldBack tip)).Rooted ∧ (f.next (.heldBack tip)).best = f.best ∧
      (f.next (.heldBack tip)).chain = f.chain := by
  have hback : ∀ {g : ForkChoice}, g.Rooted → g.rolledBack g.best = g := fun {g} hg => by
    have := hg.rolledBack_setBest g.best
    rwa [hg.setBest_best] at this
  have hnext : f.next (.heldBack tip) = (f.consider tip).2.rolledBack f.best := rfl
  rw [hnext]
  rcases consider_attached_or hfit with ⟨-, answer, hcons, -⟩ | ⟨below, hfits, hcons⟩
  · rw [hcons, hback h]
    exact ⟨h, rfl, rfl⟩
  · have hg := h.graft hfits
    obtain ⟨id, e, -, -, -, hfollow⟩ := hg.follow_cases tip.id
    suffices heq : (f.consider tip).2.rolledBack f.best =
        { f with tree := f.tree.graft tip below } by
      rw [heq]
      exact ⟨hg, rfl, h.chain_graft hfits⟩
    rw [hcons]
    obtain ⟨-, heq⟩ | ⟨-, way, -, heq⟩ := hfollow
    · rw [heq]
      exact hback hg
    · rw [heq]
      exact hg.rolledBack_setBest id

/-- A fork choice, with the copy of its chain of somebody who hears of the outcomes only.  There is
no copy any more once an outcome did not go with it. -/
structure Followed where
  choice : ForkChoice
  copy : Option (List Block)

namespace Followed

/-- A fork choice over a tree whose chain has just been read. -/
def start (depth : Nat) (t : ChainTree) : Followed :=
  ⟨ofTree depth t, some (ofTree depth t).chain⟩

/-- The copy replays the outcomes; a block that was held back is not told.  After a rollback the
chain is read again. -/
def next (s : Followed) (event : Event) : Followed where
  choice := s.choice.next event
  copy :=
    match event with
    | .consider tip =>
      match (s.choice.consider tip).1 with
      | .ok outcome => s.copy.bind fun copy => outcome.replay tip.block copy
      | .error _ => s.copy
    | .heldBack _ => s.copy
    | .rollback _ => some (s.choice.next event).chain
    | .advanceRoot => s.copy

/-- A copy in step: it is one chain of blocks, which ends with the canonical one. -/
structure InStep (s : Followed) : Prop where
  rooted : s.choice.Rooted
  copied : ∃ final, s.copy = some (final ++ s.choice.chain) ∧
    (final ++ s.choice.chain).IsChain fun below b => b.On below

theorem inStep_read (h : f.Rooted) : InStep ⟨f, some f.chain⟩ :=
  ⟨h, [], rfl, h.isChain_chain⟩

/-- **Every event keeps the copy in step**, unless it overflows. -/
theorem InStep.next {s : Followed} (h : s.InStep) {event : Event}
    (hfit : ¬ s.choice.EventOverflows event) : (s.next event).InStep := by
  obtain ⟨final, hcopy, hchain⟩ := h.copied
  cases event with
  | consider tip =>
    obtain ⟨htold, hrooted⟩ := h.rooted.told_consider hfit
    refine ⟨hrooted, final, ?_, ?_⟩
    · simp only [Followed.next, ForkChoice.next]
      rcases hres : (s.choice.consider tip).1 with e | outcome
      · rw [hres] at htold
        rw [htold.1]
        exact hcopy
      · rw [hres] at htold
        simp only [hcopy]
        exact htold.replay final
    · -- the new chain starts where the old one did
      rw [List.isChain_append] at hchain ⊢
      refine ⟨hchain.1, hrooted.isChain_chain, ?_⟩
      have hhead := htold.head?_chain h.rooted.chain_ne_nil
      exact fun x hx y hy => hchain.2.2 x hx y (hhead ▸ hy)
  | heldBack tip =>
    obtain ⟨hrooted, -, hsame⟩ := h.rooted.heldBack hfit
    rw [← hsame] at hcopy hchain
    exact ⟨hrooted, final, hcopy, hchain⟩
  | rollback id => exact inStep_read (h.rooted.rolledBack id)
  | advanceRoot =>
    rcases h.rooted.advanceRoot_cases with ⟨e, hadv⟩ | ⟨report, t, hadv, hmem, hpart⟩
    · have heq : s.next .advanceRoot = s := by
        simp only [Followed.next, ForkChoice.next, rootAdvanced, hadv]
      rw [heq]
      exact h
    have heq : s.choice.next .advanceRoot = { s.choice with tree := t } := by
      simp only [ForkChoice.next, rootAdvanced, hadv]
    obtain ⟨gone, hgone⟩ := h.rooted.chain_cutBack hmem hpart
    -- the blocks that the chain loses at its lower end stay in the copy
    refine ⟨?_, final ++ gone, ?_, ?_⟩
    · rw [Followed.next, heq]
      exact h.rooted.cutBack hmem hpart
    · rw [Followed.next, heq, List.append_assoc, ← hgone]
      exact hcopy
    · rw [Followed.next, heq, List.append_assoc, ← hgone]
      exact hchain

/-- None of the events that a fork choice meets overflows. -/
def InRange (s : Followed) (events : List Event) : Prop :=
  Along Followed.next (fun s event => ¬ s.choice.EventOverflows event) s events

theorem InStep.foldl {s : Followed} (h : s.InStep) {events : List Event}
    (hrange : s.InRange events) : (events.foldl Followed.next s).InStep :=
  Along.foldl (P := InStep) hrange (fun hs hfit => hs.next hfit) h

end Followed

end ForkChoice

end LedgerChain
